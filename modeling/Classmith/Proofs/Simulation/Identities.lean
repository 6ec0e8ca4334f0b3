import Classmith.Proofs.Simulation.Ledgers
import Mathlib.Logic.Relation

/-!
# Numbers of values

A number stands for one value throughout a walk, and a value refers to values of smaller numbers only.
-/
namespace Classmith

namespace Simulation

/-! ## Ledgers along a walk -/

/-- The ledger of a state that a walk reaches begins with those of the states before it. -/
theorem exists_recorded {c : Class} {m : Method} {k : Nat} {t : State}
    (h : stateAfter? c m k = some t) : ∃ made, Recorded made t ∧
      ∀ n s, n ≤ k → stateAfter? c m n = some s → ∃ front, front <+: made ∧ Recorded front s := by
  induction k generalizing t with
  | zero =>
    rw [stateAfter?_zero] at h
    have hstart : Recorded [] State.start := ⟨Ledger.nil, rfl, fun hv => by cases hv⟩
    obtain ⟨made, hmade, -⟩ :=
      Sim.records_enter c.name m [] State.start () t hstart (by simp) (enter_of_start? h)
    rw [List.nil_append] at hmade
    refine ⟨made, hmade, ?_⟩
    intro n s hn hs
    obtain rfl := Nat.le_zero.mp hn
    rw [stateAfter?_zero, h] at hs
    cases hs
    exact ⟨made, List.prefix_rfl, hmade⟩
  | succ k ih =>
    obtain ⟨before, i, hbefore, -, hstep⟩ := step_of_stateAfter? h
    obtain ⟨made, hmade, hearlier⟩ := ih hbefore
    have hrecords := Sim.records_step k ⟨c.name, m.instructions⟩ i []
    obtain ⟨more, hmore, -⟩ := hrecords made before () t hmade (by simp) hstep
    refine ⟨made ++ more, hmore, ?_⟩
    intro n s hn hs
    rcases Nat.le_succ_iff.mp hn with hn | rfl
    · obtain ⟨front, hfront, hrecorded⟩ := hearlier n s hn hs
      exact ⟨front, hfront.trans (List.prefix_append made more), hrecorded⟩
    · rw [h] at hs
      cases hs
      exact ⟨made ++ more, List.prefix_rfl, hmore⟩

/-- A value is another one or stands, at any depth, in its origin. -/
def Value.Contains : Value → Value → Prop :=
  Relation.ReflTransGen fun v u => u ∈ v.origin.operands

/-- A value is on the stack, in the locals or in the origin of one that is. -/
def State.Shows (s : State) (u : Value) : Prop := ∃ v ∈ s.values, v.Contains u

theorem Ledger.mem_of_contains {made : List Value} (h : Ledger made) {v u : Value} (hv : v ∈ made)
    (hu : v.Contains u) : u ∈ made := by
  induction hu with
  | refl => exact hv
  | tail _ hoperand ih => exact (h.earlier ih hoperand).1

theorem Recorded.mem_of_shows {made : List Value} {s : State} (h : Recorded made s) {u : Value}
    (hu : s.Shows u) : u ∈ made := by
  obtain ⟨v, hv, hcontains⟩ := hu
  exact h.mem_of_contains (h.values hv) hcontains

/-- Two states that a walk reaches have a ledger in common. -/
theorem exists_common_ledger {c : Class} {m : Method} {n k : Nat} {s t : State}
    (hs : stateAfter? c m n = some s) (ht : stateAfter? c m k = some t) :
    ∃ made, Ledger made ∧ (∀ v, s.Shows v → v ∈ made) ∧ ∀ v, t.Shows v → v ∈ made := by
  rcases Nat.le_total n k with hle | hle
  · obtain ⟨made, hmade, hearlier⟩ := exists_recorded ht
    obtain ⟨front, hfront, hrecorded⟩ := hearlier n s hle hs
    exact ⟨made, hmade.toLedger, fun v hv => hfront.subset (hrecorded.mem_of_shows hv),
      fun v => hmade.mem_of_shows⟩
  · obtain ⟨made, hmade, hearlier⟩ := exists_recorded hs
    obtain ⟨front, hfront, hrecorded⟩ := hearlier k t hle ht
    exact ⟨made, hmade.toLedger, fun v => hmade.mem_of_shows,
      fun v hv => hfront.subset (hrecorded.mem_of_shows hv)⟩

/-! ## Unwinding -/

/-- The value that a checked cast was made from. -/
def Value.uncast? : Value → Option Value
  | .mk _ _ _ _ (.cast _ source) => some source
  | _ => none

/-- The value after at most so many casts have been taken off. -/
def Value.peel : (rounds : Nat) → Value → Value
  | 0, v => v
  | rounds + 1, v => v.uncast?.elim v (Value.peel rounds)

theorem Value.stripCasts_eq (v : Value) : v.stripCasts = v.uncast?.elim v Value.stripCasts := by
  obtain ⟨id, d, isValid, isNull, origin⟩ := v
  cases origin <;> rfl

theorem Value.mem_operands_of_uncast? {v u : Value} (h : v.uncast? = some u) :
    u ∈ v.origin.operands := by
  obtain ⟨id, d, isValid, isNull, origin⟩ := v
  cases origin <;> cases h
  exact List.mem_singleton_self u

/-- From value to operand one can go on fewer times than the number of the value says. -/
theorem Ledger.length_lt_of_isChain {made : List Value} (h : Ledger made) {v : Value} (hv : v ∈ made)
    {chain : List Value} (hchain : (v :: chain).IsChain fun v u => u ∈ v.origin.operands) :
    chain.length < v.id := by
  induction chain generalizing v with
  | nil => exact (h.id_le hv).1
  | cons u rest ih =>
    obtain ⟨hoperand, hrest⟩ := List.isChain_cons_cons.mp hchain
    obtain ⟨hu, hlt⟩ := h.earlier hv hoperand
    have hlength := ih hu hrest
    rw [List.length_cons]
    omega

/-- Fewer rounds than the number of the value says take off all casts. -/
theorem Ledger.peel_spec {made : List Value} (h : Ledger made) {v : Value} (hv : v ∈ made)
    (rounds : Nat) (hrounds : v.id ≤ rounds + 1) :
    v.peel rounds = v.stripCasts ∧ v.stripCasts.uncast? = none := by
  induction rounds generalizing v with
  | zero =>
    have hnone : v.uncast? = none := by
      cases huncast : v.uncast? with
      | none => rfl
      | some u =>
        obtain ⟨hu, hlt⟩ := h.earlier hv (Value.mem_operands_of_uncast? huncast)
        have hpos := (h.id_le hu).1
        omega
    rw [v.stripCasts_eq, hnone]
    exact ⟨rfl, hnone⟩
  | succ rounds ih =>
    rw [Value.peel, v.stripCasts_eq]
    cases huncast : v.uncast? with
    | none => exact ⟨rfl, huncast⟩
    | some u =>
      obtain ⟨hu, hlt⟩ := h.earlier hv (Value.mem_operands_of_uncast? huncast)
      exact ih hu (by omega)

/-- The number of a value as a word of 32 bits, in which it is kept. -/
def Value.word (v : Value) : UInt32 := UInt32.ofNat v.id

theorem Value.toNat_word {v : Value} {bound : Nat} (h : v.id ≤ bound) (hbound : bound < UInt32.size) :
    v.word.toNat = v.id :=
  UInt32.toNat_ofNat_of_lt' (Nat.lt_of_le_of_lt h hbound)

/-- As long as there are words for the numbers, every value that a state of a walk shows has one of the
numbers given out so far, the values it was made from have smaller ones, so that unwinding it ends, and
no other value that any state of the walk shows has the same. -/
theorem identities_sound (c : Class) (m : Method) {n k : Nat} {s t : State}
    (hs : stateAfter? c m n = some s) (ht : stateAfter? c m k = some t)
    (hsize : s.created < UInt32.size) (hsize' : t.created < UInt32.size) :
    (∀ v, s.Shows v → v.word.toNat = v.id ∧ 1 ≤ v.id ∧ v.id ≤ s.created ∧
      (∀ u ∈ v.origin.operands, u.id < v.id) ∧
      (∀ chain, (v :: chain).IsChain (fun v u => u ∈ v.origin.operands) → chain.length < v.id) ∧
      v.peel (v.id - 1) = v.stripCasts ∧ v.stripCasts.uncast? = none) ∧
    ∀ v w, s.Shows v → t.Shows w → v.word = w.word → v = w := by
  have hbound : ∀ {n s}, stateAfter? c m n = some s → ∀ v, s.Shows v → 1 ≤ v.id ∧ v.id ≤ s.created := by
    intro n s hs v hv
    obtain ⟨made, hmade, -⟩ := exists_recorded hs
    rw [← hmade.count]
    exact hmade.id_le (hmade.mem_of_shows hv)
  obtain ⟨made, hmade, hfirst, hsecond⟩ := exists_common_ledger hs ht
  constructor
  · intro v hv
    obtain ⟨hpos, hle⟩ := hbound hs v hv
    have hmem := hfirst v hv
    obtain ⟨hpeel, huncast⟩ := hmade.peel_spec hmem (v.id - 1) (by omega)
    exact ⟨Value.toNat_word hle hsize, hpos, hle, fun u hu => (hmade.earlier hmem hu).2,
      fun chain => hmade.length_lt_of_isChain hmem, hpeel, huncast⟩
  · intro v w hv hw hword
    have hid : v.id = w.id := by
      rw [← Value.toNat_word (hbound hs v hv).2 hsize, hword,
        Value.toNat_word (hbound ht w hw).2 hsize']
    exact hmade.unique (hfirst v hv) (hsecond w hw) hid

end Simulation

namespace Samples

/-- Casts its parameter twice and keeps a copy of the result. -/
def narrow : Method where
  access := 0x0008
  name := "narrow"
  descriptor := "(Ljava/lang/Object;)V"
  maxLocals := 2
  instructions := [.var 0x19 0, .type 0xc0 "p/Node", .type 0xc0 "p/Leaf", .insn 0x59, .var 0x3a 1]

end Samples

namespace Simulation

/-- The value in the origin of the last cast is the one that was on the stack after the first. -/
theorem identities_sound_narrow :
    ∃ s t v w, stateAfter? Samples.tree Samples.narrow 5 = some s ∧
      stateAfter? Samples.tree Samples.narrow 2 = some t ∧
      s.stack = [w] ∧ s.locals[1]? = some w ∧ w.uncast? = some v ∧ v.id = 3 ∧ t.stack = [v] ∧
      w.peel 3 = w.stripCasts := by
  have hlast : (stateAfter? Samples.tree Samples.narrow 5).map (fun s =>
      (s.created, s.stack.map fun w => (w.id, w.uncast?.map Value.id), s.locals.map Value.id)) =
      some (4, [(4, some 3)], [1, 4]) := by
    decide +kernel
  have hfirst : (stateAfter? Samples.tree Samples.narrow 2).map (fun s =>
      (s.created, s.stack.map Value.id)) = some (3, [3]) := by
    decide +kernel
  obtain ⟨s, hs, hs'⟩ := Option.map_eq_some_iff.mp hlast
  obtain ⟨t, ht, ht'⟩ := Option.map_eq_some_iff.mp hfirst
  simp only [Prod.mk.injEq, List.map_eq_singleton_iff] at hs' ht'
  obtain ⟨hcreated, ⟨w, hw, hid, huncast⟩, hlocals⟩ := hs'
  obtain ⟨hcreated', x, hx, hxid⟩ := ht'
  obtain ⟨v, hv, hvid⟩ := Option.map_eq_some_iff.mp huncast
  have hslot : (s.locals[1]?).map Value.id = some 4 := by
    rw [← List.getElem?_map, hlocals]
    rfl
  obtain ⟨y, hy, hyid⟩ := Option.map_eq_some_iff.mp hslot
  have hsize : s.created < UInt32.size := by rw [hcreated]; decide
  have hsize' : t.created < UInt32.size := by rw [hcreated']; decide
  have hshowsW : s.Shows w := ⟨w, by simp [State.values, hw], .refl⟩
  have hshowsY : s.Shows y := ⟨y, List.mem_append_right _ (List.mem_of_getElem? hy), .refl⟩
  have hshowsV : s.Shows v :=
    ⟨w, by simp [State.values, hw], .single (Value.mem_operands_of_uncast? hv)⟩
  have hshowsX : t.Shows x := ⟨x, by simp [State.values, hx], .refl⟩
  have hvx : v = x := by
    apply (identities_sound Samples.tree Samples.narrow hs ht hsize hsize').2 v x hshowsV hshowsX
    rw [Value.word, Value.word, hvid, hxid]
  have hwy : w = y := by
    apply (identities_sound Samples.tree Samples.narrow hs hs hsize hsize).2 w y hshowsW hshowsY
    rw [Value.word, Value.word, hid, hyid]
  have hpeel := (identities_sound Samples.tree Samples.narrow hs ht hsize hsize').1 w hshowsW
  rw [hid] at hpeel
  exact ⟨s, t, v, w, hs, ht, hw, hwy ▸ hy, hv, hvid, hvx ▸ hx, hpeel.2.2.2.2.2.1⟩

end Simulation

end Classmith
