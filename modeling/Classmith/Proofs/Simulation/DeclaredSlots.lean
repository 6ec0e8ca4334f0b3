import Classmith.Proofs.Simulation.Locals

/-!
# The slots of declared locals

A state records the widths of the declared locals apart from the slots, and a write to a slot that is not there is
lost without notice. But the declared locals always have their slots, one after the other from the first on. So what a
frame writes when it declares more locals or takes some back lands in their slots, and in no others.
-/
namespace Classmith

/-! ## What frames write -/

namespace Simulation

/-- In the second state the slots from one on hold values that were made since the first, one for each of those
given. -/
def Written (first : Nat) (makes : List (Nat → Value)) (s t : State) : Prop :=
  ∀ k make, makes[k]? = some make →
    ∃ id, s.created < id ∧ id ≤ t.created ∧ t.locals[first + k]? = some (make id)

/-- The second state has newly made values in the slots from one on, and every other slot is as in the first state. -/
structure Overwrites (first : Nat) (makes : List (Nat → Value)) (s t : State) : Prop where
  created : s.created ≤ t.created
  written : Written first makes s t
  kept : ∀ slot, slot < first ∨ first + makes.length ≤ slot → t.locals[slot]? = s.locals[slot]?

/-- Where slots were added only to have enough of them for a write, the others are as before. -/
theorem getElem?_padded {l filler : List Value} {first count : Nat} (hfirst : first ≤ l.length)
    (hfiller : filler.length = first + count - l.length) {slot : Nat}
    (hslot : slot < first ∨ first + count ≤ slot) : (l ++ filler)[slot]? = l[slot]? := by
  by_cases hlt : slot < l.length
  · exact List.getElem?_append_left hlt
  · rw [List.getElem?_eq_none (Nat.le_of_not_lt hlt), List.getElem?_eq_none]
    rw [List.length_append]
    omega

section Writes

variable {first next : Nat} {makes more : List (Nat → Value)} {s t u : State}

theorem Written.append (h : Written first makes s t) (h' : Written (first + makes.length) more s t) :
    Written first (makes ++ more) s t := by
  intro k make hmake
  by_cases hk : k < makes.length
  · rw [List.getElem?_append_left hk] at hmake
    exact h k make hmake
  · have hle := Nat.le_of_not_lt hk
    rw [List.getElem?_append_right hle] at hmake
    obtain ⟨id, hlow, hhigh, hslot⟩ := h' _ make hmake
    rw [Nat.add_assoc, Nat.add_sub_of_le hle] at hslot
    exact ⟨id, hlow, hhigh, hslot⟩

theorem Written.since (h : Written first makes t u) (hle : s.created ≤ t.created) : Written first makes s u := by
  intro k make hmake
  obtain ⟨id, hlow, hhigh, hslot⟩ := h k make hmake
  exact ⟨id, Nat.lt_of_le_of_lt hle hlow, hhigh, hslot⟩

/-- What was written is still there after a write to other slots. -/
theorem Written.kept (h : Written first makes s t) (h' : Overwrites next more t u)
    (hapart : first + makes.length ≤ next ∨ next + more.length ≤ first) : Written first makes s u := by
  intro k make hmake
  obtain ⟨id, hlow, hhigh, hslot⟩ := h k make hmake
  have hk : k < makes.length := (List.getElem?_eq_some_iff.mp hmake).1
  refine ⟨id, hlow, Nat.le_trans hhigh h'.created, ?_⟩
  rw [h'.kept (first + k) (by omega), hslot]

namespace Overwrites

theorem nil (first : Nat) (s : State) : Overwrites first [] s s where
  created := Nat.le_refl _
  written k make hmake := by simp at hmake
  kept _ _ := rfl

theorem congr (h : Overwrites first makes s t) (hlocals : u.locals = t.locals) (hcreated : u.created = t.created) :
    Overwrites first makes s u where
  created := hcreated ▸ h.created
  written := by
    unfold Written
    rw [hlocals, hcreated]
    exact h.written
  kept := by
    rw [hlocals]
    exact h.kept

theorem append (h : Overwrites first makes s t) (h' : Overwrites (first + makes.length) more t u) :
    Overwrites first (makes ++ more) s u where
  created := Nat.le_trans h.created h'.created
  written := (h.written.kept h' (.inl (Nat.le_refl _))).append (h'.written.since h.created)
  kept slot hslot := by
    rw [List.length_append] at hslot
    rw [h'.kept slot (by omega), h.kept slot (by omega)]

theorem prepend (h : Overwrites (first + makes.length) more s t) (h' : Overwrites first makes t u) :
    Overwrites first (makes ++ more) s u where
  created := Nat.le_trans h.created h'.created
  written := (h'.written.since h.created).append (h.written.kept h' (.inr (Nat.le_refl _)))
  kept slot hslot := by
    rw [List.length_append] at hslot
    rw [h'.kept slot (by omega), h.kept slot (by omega)]

theorem ofSet {filler : List Value} {make : Nat → Value} {id : Nat} (hfirst : first ≤ s.locals.length)
    (hfiller : filler.length = first + 1 - s.locals.length) (hlow : s.created < id) (hhigh : id ≤ t.created)
    (hlocals : t.locals = (s.locals ++ filler).set first (make id)) : Overwrites first [make] s t where
  created := by omega
  written := by
    rintro (_ | k) _ hmake
    · cases hmake
      refine ⟨id, hlow, hhigh, ?_⟩
      rw [hlocals]
      exact List.getElem?_set_self (by rw [List.length_append]; omega)
    · cases hmake
  kept slot (hslot : slot < first ∨ first + 1 ≤ slot) := by
    rw [hlocals, List.getElem?_set_ne (by omega), getElem?_padded hfirst hfiller hslot]

theorem ofSetTwice {filler : List Value} {make second : Nat → Value} {id later : Nat}
    (hfirst : first ≤ s.locals.length) (hfiller : filler.length = first + 2 - s.locals.length)
    (hlow : s.created < id) (hlater : id < later) (hhigh : later ≤ t.created)
    (hlocals : t.locals = ((s.locals ++ filler).set first (make id)).set (first + 1) (second later)) :
    Overwrites first [make, second] s t where
  created := by omega
  written := by
    have hpadded : first + 2 ≤ (s.locals ++ filler).length := by
      rw [List.length_append]
      omega
    rintro (_ | _ | k) _ hmake
    · cases hmake
      refine ⟨id, hlow, by omega, ?_⟩
      rw [hlocals, List.getElem?_set_ne (by omega)]
      exact List.getElem?_set_self (by omega)
    · cases hmake
      refine ⟨later, by omega, hhigh, ?_⟩
      rw [hlocals, List.getElem?_set_self (by rw [List.length_set]; omega)]
    · cases hmake
  kept slot (hslot : slot < first ∨ first + 2 ≤ slot) := by
    rw [hlocals, List.getElem?_set_ne (by omega), List.getElem?_set_ne (by omega),
      getElem?_padded hfirst hfiller hslot]

end Overwrites

end Writes

namespace Sim

variable {b : Body} {position : Nat} {s t : State}

/-! ## Declaring locals -/

theorem overwrites_declareLocal {entry : FrameValue} (hknown : (entry.kind? b).isSome = true) (hroom : s.HasRoom)
    (h : declareLocal b position entry s = .ok ((), t)) :
    Overwrites s.declaredSlots (entry.slotValues b position) s t := by
  have hget : (get : Sim State) s = .ok (s, s) := rfl
  obtain ⟨filler, hensure, hfiller, -⟩ :=
    ensureLocals_spec (s.declaredSlots + entry.width) { s with created := s.created + 1 }
  rw [declareLocal_eq, bind_of_ok hget, bind_of_ok (frameValue_make position hknown s), bind_of_ok hensure] at h
  unfold FrameValue.slotValues FrameValue.slots
  rcases entry.width_eq with hone | htwo
  · rw [hone] at h hfiller ⊢
    obtain ⟨hlocals, hcreated⟩ :
        t.locals = (s.locals ++ filler).set s.declaredSlots (entry.make b position (s.created + 1)) ∧
        t.created = s.created + 1 + filler.length := by
      cases h
      exact ⟨rfl, rfl⟩
    exact .ofSet hroom hfiller (Nat.lt_succ_self _) (by omega) hlocals
  · rw [htwo] at h hfiller ⊢
    obtain ⟨hlocals, hcreated⟩ :
        t.locals = ((s.locals ++ filler).set s.declaredSlots (entry.make b position (s.created + 1))).set
          (s.declaredSlots + 1) (.unusable t.created) ∧
        t.created = s.created + 1 + filler.length + 1 := by
      cases h
      exact ⟨rfl, rfl⟩
    exact .ofSetTwice hroom hfiller (Nat.lt_succ_self _) (by omega) (Nat.le_refl _) hlocals

theorem overwrites_declareLocals {entries : List FrameValue} (hroom : s.HasRoom)
    (h : declareLocals b position entries s = .ok ((), t)) :
    Overwrites s.declaredSlots (slotValues b position entries) s t := by
  have hknown := known_of_declareLocals h
  induction entries generalizing s with
  | nil =>
    cases h
    exact .nil _ _
  | cons entry rest ih =>
    obtain ⟨_, u, hentry, hrest⟩ := exists_of_bind h
    obtain ⟨hknown, hknown'⟩ := List.forall_mem_cons.mp hknown
    obtain ⟨u', hu', hdeclares⟩ := declareLocal_known position hknown hroom
    rw [hu'] at hentry
    cases hentry
    have hslots : u.declaredSlots = s.declaredSlots + (entry.slotValues b position).length := by
      rw [hdeclares.declaredSlots, ← length_slotValues b position]
      simp [slotValues]
    have hroom' : u.HasRoom := by
      have hlength := hdeclares.length_locals hroom
      have hdeclared := hdeclares.declaredSlots
      omega
    have hwrites := ih hroom' hrest hknown'
    rw [hslots] at hwrites
    exact (overwrites_declareLocal hknown hroom hu').append hwrites

/-! ## Taking declarations back -/

theorem overwrites_invalidate {slot count : Nat} (hroom : slot + count ≤ s.locals.length)
    (h : invalidate slot count s = .ok ((), t)) :
    Overwrites slot (List.replicate count .unusable) s t := by
  obtain ⟨hlocals, hcreated⟩ : (t.locals = s.locals.mapIdx fun i v =>
      if slot ≤ i ∧ i < slot + count then .unusable (s.created + 1 + (i - slot)) else v) ∧
      t.created = s.created + count := by
    cases h
    exact ⟨rfl, rfl⟩
  refine ⟨by omega, ?_, ?_⟩
  · intro k make hmake
    rw [List.getElem?_replicate] at hmake
    obtain ⟨hk, hmake⟩ := Option.ite_none_right_eq_some.mp hmake
    cases hmake
    refine ⟨s.created + 1 + k, by omega, by omega, ?_⟩
    have hslot : slot + k < s.locals.length := by omega
    rw [hlocals, List.getElem?_mapIdx, List.getElem?_eq_getElem hslot, Option.map_some,
      if_pos ⟨by omega, by omega⟩, Nat.add_sub_cancel_left]
  · intro other hother
    rw [List.length_replicate] at hother
    have hout : ¬(slot ≤ other ∧ other < slot + count) := by omega
    simp [hlocals, hout]

/-- Locals can be taken back as long as there are declared ones. -/
theorem chop_ok_or_error (count : Nat) (s : State) :
    (count ≤ s.widths.length ∧ ∃ t, chop count s = .ok ((), t)) ∨
      (s.widths.length < count ∧ chop count s = .error (.malformed .chopsTooMany)) := by
  induction count generalizing s with
  | zero => exact .inl ⟨Nat.zero_le _, s, rfl⟩
  | succ count ih =>
    cases hwidths : s.widths with
    | nil => exact .inr ⟨Nat.succ_pos count, chop_of_nil hwidths count⟩
    | cons width rest =>
      obtain ⟨u, hinvalid, hchop⟩ := chop_of_cons hwidths count
      have hrest : u.widths = rest := by
        cases hinvalid
        rfl
      rw [hchop, List.length_cons, Nat.succ_le_succ_iff, Nat.succ_lt_succ_iff, ← hrest]
      exact ih u

theorem overwrites_chop {count : Nat} (hroom : s.HasRoom) (h : chop count s = .ok ((), t)) :
    Overwrites t.declaredSlots (List.replicate (s.declaredSlots - t.declaredSlots) .unusable) s t := by
  induction count generalizing s with
  | zero =>
    cases h
    rw [Nat.sub_self]
    exact .nil _ _
  | succ count ih =>
    cases hwidths : s.widths with
    | nil =>
      rw [chop_of_nil hwidths] at h
      cases h
    | cons width rest =>
      obtain ⟨u, hinvalid, hchop⟩ := chop_of_cons hwidths count
      rw [hchop] at h
      obtain ⟨hfirst, hlength⟩ :
          u.declaredSlots = rest.foldl (· + ·) 0 ∧ u.locals.length = s.locals.length := by
        cases hinvalid
        exact ⟨rfl, List.length_mapIdx⟩
      have hslots : s.declaredSlots = u.declaredSlots + width := by
        rw [State.declaredSlots, hwidths, List.foldl_cons, foldl_add_eq, hfirst]
        omega
      have hle : t.declaredSlots ≤ u.declaredSlots := by
        have hdrop := foldl_add_drop_le u.widths count
        rwa [← (chop_spec h).1] at hdrop
      rw [← hfirst] at hinvalid
      have hlast : Overwrites u.declaredSlots (List.replicate width .unusable) s u := by
        obtain ⟨hcreated, hwritten, hkept⟩ := overwrites_invalidate (by simp only; omega) hinvalid
        exact ⟨hcreated, hwritten, hkept⟩
      -- the slots of the locals taken back later lie below those of the last one
      have hcount : s.declaredSlots - t.declaredSlots = u.declaredSlots - t.declaredSlots + width := by omega
      rw [hcount, ← List.replicate_append_replicate]
      refine Overwrites.prepend ?_ (ih (by omega) h)
      rwa [List.length_replicate, Nat.add_sub_of_le hle]

/-! ## Walks -/

/-- The recorded widths are those of locals that frames of the body can declare, and there are slots for all of them
and as many as given at least. -/
structure HoldsDeclared (b : Body) (size : Nat) (s : State) : Prop where
  entries : ∃ current, s.widths = widthsOf current ∧ Known b current
  room : s.HasRoom
  size : size ≤ s.locals.length

theorem HoldsDeclared.width_eq {size : Nat} (h : HoldsDeclared b size s) :
    ∀ width ∈ s.widths, width = 1 ∨ width = 2 := by
  obtain ⟨current, hwidths, -⟩ := h.entries
  intro width hwidth
  rw [hwidths, widthsOf, List.mem_reverse] at hwidth
  obtain ⟨entry, -, rfl⟩ := List.mem_map.mp hwidth
  exact entry.width_eq

theorem holdsDeclared_enter {owner : String} {m : Method} (h : enter owner m State.start = .ok ((), s)) :
    HoldsDeclared b m.maxLocals.toNat s := by
  obtain ⟨hroom, hwidths⟩ := enter_spec h
  refine ⟨⟨_, hwidths, known_entryLocals b owner m⟩, hroom, ?_⟩
  cases hsplit : Descriptor.split m.descriptor with
  | error defect =>
    unfold enter at h
    rw [hsplit] at h
    cases h
  | ok type =>
    rw [enter_eq hsplit] at h
    obtain ⟨_, _, -, h⟩ := exists_of_bind h
    obtain ⟨_, u, -, h⟩ := exists_of_bind h
    obtain ⟨filler, hfill, hlength, -⟩ := ensureLocals_spec m.maxLocals.toNat u
    rw [hfill] at h
    cases h
    rw [List.length_append]
    omega

/-- No step takes slots away, and what frames declare gets its slots. -/
theorem HoldsDeclared.step {size : Nat} {i : Instruction} (hs : HoldsDeclared b size s)
    (h : step b position i s = .ok ((), t)) : HoldsDeclared b size t ∧ s.locals.length ≤ t.locals.length := by
  obtain ⟨⟨current, hcurrent, hknown⟩, hroom, hsize⟩ := hs
  have hroom' := hasRoom_step hroom h
  rcases step_cases h with ⟨hlocals, hwidths⟩ | ⟨_, _, v, rest, -, -, hstores⟩ | ⟨declared, -, hframe⟩
  · have hle : s.locals.length ≤ t.locals.length := Nat.le_of_eq (congrArg List.length hlocals).symm
    exact ⟨⟨⟨current, hwidths.trans hcurrent, hknown⟩, hroom', Nat.le_trans hsize hle⟩, hle⟩
  · have hle : s.locals.length ≤ t.locals.length := hstores.length
    exact ⟨⟨⟨current, hstores.widths.trans hcurrent, hknown⟩, hroom', Nat.le_trans hsize hle⟩, hle⟩
  · obtain ⟨hknown', hwidths, hlength⟩ := locals_of_applyFrame hcurrent hroom hknown hframe
    have hle : s.locals.length ≤ t.locals.length := hlength ▸ Nat.le_max_left _ _
    exact ⟨⟨⟨_, hwidths, hknown'⟩, hroom', Nat.le_trans hsize hle⟩, hle⟩

/-- The last declared locals are taken back: their slots get newly made values that cannot be used, and every other
slot is as before. -/
structure TakesBack (count : Nat) (s t : State) : Prop where
  widths : t.widths = s.widths.drop count
  length : t.locals.length = s.locals.length
  slots : Overwrites t.declaredSlots (List.replicate (s.declaredSlots - t.declaredSlots) .unusable) s t

/-- More locals are declared: their values are in the slots after those declared before, and every other slot is as
before. -/
structure Adds (b : Body) (position : Nat) (entries : List FrameValue) (s t : State) : Prop where
  widths : t.widths = widthsOf entries ++ s.widths
  declaredSlots : t.declaredSlots = s.declaredSlots + (slotValues b position entries).length
  length : t.locals.length = max s.locals.length t.declaredSlots
  slots : Overwrites s.declaredSlots (slotValues b position entries) s t

theorem applyFrame_chop (b : Body) (position : Nat) (hroom : s.HasRoom) (count : UInt64) :
    (count.toNat ≤ s.widths.length ∧
      ∃ t, applyFrame b position (.chop count) s = .ok ((), t) ∧ TakesBack count.toNat s t) ∨
    (s.widths.length < count.toNat ∧
      applyFrame b position (.chop count) s = .error (.malformed .chopsTooMany)) := by
  rw [applyFrame]
  rcases chop_ok_or_error count.toNat s with ⟨hcount, t, ht⟩ | ⟨hcount, herror⟩
  · obtain ⟨hwidths, hlength⟩ := chop_spec ht
    rw [bind_of_ok ht]
    exact .inl ⟨hcount, _, rfl, hwidths, hlength, (overwrites_chop hroom ht).congr rfl rfl⟩
  · exact .inr ⟨hcount, bind_of_error herror _⟩

theorem applyFrame_append (b : Body) (position : Nat) (hroom : s.HasRoom) (entries : List FrameValue) :
    (Known b entries ∧
      ∃ t, applyFrame b position (.append entries) s = .ok ((), t) ∧ Adds b position entries s t) ∨
    (¬Known b entries ∧ ∃ fault, applyFrame b position (.append entries) s = .error fault) := by
  rw [applyFrame]
  cases hlocals : declareLocals b position entries s with
  | error fault =>
    refine .inr ⟨fun hknown => ?_, fault, bind_of_error hlocals _⟩
    obtain ⟨t, ht, -⟩ := declareLocals_known position hknown hroom
    rw [ht] at hlocals
    cases hlocals
  | ok result =>
    obtain ⟨⟨⟩, t⟩ := result
    have hknown := known_of_declareLocals hlocals
    obtain ⟨t', ht', hdeclares⟩ := declareLocals_known position hknown hroom
    cases ht'.symm.trans hlocals
    have hslots := hdeclares.declaredSlots
    have hlength := hdeclares.length_locals hroom
    rw [← hslots] at hlength
    rw [← length_slotValues b position] at hslots
    rw [bind_of_ok hlocals]
    exact .inl ⟨hknown, _, rfl, hdeclares.widths, hslots, hlength,
      (overwrites_declareLocals hroom hlocals).congr rfl rfl⟩

end Sim

open Sim

variable {c : Class} {m : Method} {n : Nat} {s : State}

theorem holdsDeclared_of_stateAfter? (h : stateAfter? c m n = some s) :
    HoldsDeclared ⟨c.name, m.instructions⟩ m.maxLocals.toNat s :=
  stateAfter?_induction (fun _ henter => holdsDeclared_enter henter)
    (fun _ _ _ _ _ hs hstep => (hs.step hstep).1) h

theorem length_locals_le_of_stateAfter? {k : Nat} {t : State} (hle : n ≤ k) (hs : stateAfter? c m n = some s)
    (ht : stateAfter? c m k = some t) : s.locals.length ≤ t.locals.length := by
  induction hle generalizing t with
  | refl =>
    obtain rfl : s = t := Option.some.inj (hs.symm.trans ht)
    exact Nat.le_refl _
  | step _ ih =>
    obtain ⟨u, i, hu, -, hstep⟩ := step_of_stateAfter? ht
    exact Nat.le_trans (ih hu) ((holdsDeclared_of_stateAfter? hu).step hstep).2

theorem stateAfter?_of_step {i : Instruction} (hs : stateAfter? c m n = some s) (hi : m.instructions[n]? = some i) :
    stateAfter? c m (n + 1) = (step ⟨c.name, m.instructions⟩ n i s).toOption.map Prod.snd := by
  rw [stateAfter?_succ, hs, hi]
  rfl

/-- In every state of a walk the declared locals take one or two slots each and have them all among the slots there
are, of which there are never fewer than the method asks for or than there were before. So a chop frame, which fails
only if it removes more locals than are declared, makes the slots of those it removes unusable, and an append frame,
which fails only if it names an allocation that the method does not have, fills the slots after the declared ones;
neither changes any other slot. -/
theorem declared_locals_within_slots (c : Class) (m : Method) {n : Nat} {s : State}
    (h : stateAfter? c m n = some s) :
    (∀ width ∈ s.widths, width = 1 ∨ width = 2) ∧ s.declaredSlots ≤ s.locals.length ∧
    m.maxLocals.toNat ≤ s.locals.length ∧
    (∀ k t, n ≤ k → stateAfter? c m k = some t → s.locals.length ≤ t.locals.length) ∧
    (∀ count, m.instructions[n]? = some (.frame (.chop count)) →
      (count.toNat ≤ s.widths.length → ∃ t, stateAfter? c m (n + 1) = some t ∧ TakesBack count.toNat s t) ∧
      (s.widths.length < count.toNat → stateAfter? c m (n + 1) = none)) ∧
    ∀ entries, m.instructions[n]? = some (.frame (.append entries)) →
      (Known ⟨c.name, m.instructions⟩ entries →
        ∃ t, stateAfter? c m (n + 1) = some t ∧ Adds ⟨c.name, m.instructions⟩ n entries s t) ∧
      (¬Known ⟨c.name, m.instructions⟩ entries → stateAfter? c m (n + 1) = none) := by
  have hdeclared := holdsDeclared_of_stateAfter? h
  refine ⟨hdeclared.width_eq, hdeclared.room, hdeclared.size, fun k t hle => length_locals_le_of_stateAfter? hle h,
    ?_, ?_⟩
  · intro count hi
    rw [stateAfter?_of_step h hi, step]
    rcases applyFrame_chop ⟨c.name, m.instructions⟩ n hdeclared.room count with
      ⟨hcount, t, ht, htakes⟩ | ⟨hcount, herror⟩
    · rw [ht]
      exact ⟨fun _ => ⟨t, rfl, htakes⟩, fun hlt => by omega⟩
    · rw [herror]
      exact ⟨fun hle => by omega, fun _ => rfl⟩
  · intro entries hi
    rw [stateAfter?_of_step h hi, step]
    rcases applyFrame_append ⟨c.name, m.instructions⟩ n hdeclared.room entries with
      ⟨hknown, t, ht, hadds⟩ | ⟨hunknown, fault, herror⟩
    · rw [ht]
      exact ⟨fun _ => ⟨t, rfl, hadds⟩, fun hunknown => absurd hknown hunknown⟩
    · rw [herror]
      exact ⟨fun hknown => absurd hknown hunknown, fun _ => rfl⟩

end Simulation

namespace Samples

/-- Declares an int and a double beyond the slots of its parameter, and takes both back. -/
def widen : Method where
  access := 0x0008
  name := "widen"
  descriptor := "(J)V"
  maxLocals := 2
  instructions := [.frame (.append [.integer, .double]), .frame (.chop 2)]

end Samples

namespace Simulation

open Sim Samples

theorem declared_locals_within_slots_widen :
    ∃ start s t, stateAfter? tree widen 0 = some start ∧ start.locals.length = 2 ∧
      stateAfter? tree widen 1 = some s ∧ Adds ⟨"p/Tree", widen.instructions⟩ 0 [.integer, .double] start s ∧
      s.widths = [2, 1, 2] ∧ s.locals.length = 5 ∧
      stateAfter? tree widen 2 = some t ∧ TakesBack 2 s t ∧ t.declaredSlots = 2 ∧ t.locals.length = 5 := by
  have hentry : (stateAfter? tree widen 0).map (fun s => (s.widths, s.locals.length)) = some ([2], 2) := by
    decide +kernel
  obtain ⟨start, hstart, hshape⟩ := Option.map_eq_some_iff.mp hentry
  obtain ⟨hwidths, hlength⟩ := Prod.mk.inj hshape
  obtain ⟨-, -, -, -, -, happend⟩ := declared_locals_within_slots tree widen hstart
  obtain ⟨s, hs, hadds⟩ := (happend _ rfl).1 (by simp [Known, FrameValue.kind?, FrameValue.make?])
  have hwidths' : s.widths = [2, 1, 2] := by
    rw [hadds.widths, hwidths]
    rfl
  have hlength' : s.locals.length = 5 := by
    rw [hadds.length, State.declaredSlots, hwidths', hlength]
    rfl
  obtain ⟨-, -, -, -, hchop, -⟩ := declared_locals_within_slots tree widen hs
  obtain ⟨t, ht, htakes⟩ := (hchop 2 rfl).1 (by rw [hwidths']; decide)
  refine ⟨start, s, t, hstart, hlength, hs, hadds, hwidths', hlength', ht, htakes, ?_, ?_⟩
  · rw [State.declaredSlots, htakes.widths, hwidths']
    rfl
  · rw [htakes.length, hlength']

end Simulation

end Classmith
