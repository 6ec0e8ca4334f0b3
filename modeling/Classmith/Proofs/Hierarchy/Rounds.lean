import Classmith.Proofs.Hierarchy.Assignability

/-!
# Rounds of a query

The queries as loops that nothing bounds but a limit on their rounds: a walk keeps the names it has come to
and stops when it comes to one of them again. However the classes are put together, one round more than
there are names is enough for every loop and for the depth of every search, and the answer is the one of the
query.
-/
namespace Classmith

/-- An answer or an error, or nothing if the limit was reached before. -/
abbrev Limited := ExceptT Error Option

namespace Limited

variable {α β : Type}

/-- The loop has ended within its limit. -/
def ended (answer : Except Error α) : Limited α := ExceptT.mk (some answer)

def cutShort : Limited α := ExceptT.mk none

theorem ended_bind {x : Except Error α} {f : α → Limited β} {g : α → Except Error β}
    (hf : ∀ a, x = .ok a → f a = ended (g a)) : ended x >>= f = ended (x >>= g) := by
  cases x with
  | error e => rfl
  | ok a => exact hf a rfl

theorem foldlM_eq_ended {f : β → α → Limited β} {g : β → α → Except Error β} {l : List α}
    (hstep : ∀ b, ∀ a ∈ l, f b a = ended (g b a)) (start : β) :
    l.foldlM f start = ended (l.foldlM g start) := by
  induction l generalizing start with
  | nil => rfl
  | cons a rest ih =>
    rw [List.foldlM_cons, List.foldlM_cons, hstep start a List.mem_cons_self]
    exact ended_bind fun b _ => ih (fun b a ha => hstep b a (List.mem_cons_of_mem _ ha)) b

theorem closure_eq_ended {q : String → Limited NameSet} {x : String → Except Error NameSet}
    {info : ClassInfo} (hq : ∀ above ∈ info.supertypes, q above = ended (x above)) :
    info.closure q = ended (info.closure x) := by
  have hlisted : ∀ closure, ∀ above ∈ info.interfaces,
      ClassInfo.listInterface q closure above = ended (ClassInfo.listInterface x closure above) := by
    intro closure above habove
    rw [ClassInfo.listInterface, hq above (ClassInfo.mem_supertypes.mpr (Or.inr habove))]
    exact ended_bind fun _ _ => rfl
  rw [ClassInfo.closure, foldlM_eq_ended hlisted]
  refine ended_bind fun declared _ => ?_
  cases hsuper : info.superName with
  | none => rfl
  | some above =>
    rw [Option.elim_some, hq above (ClassInfo.mem_supertypes.mpr (Or.inl hsuper))]
    exact ended_bind fun _ _ => rfl

/-! ## The loops -/

def resolve (h : Hierarchy) (name : String) : Limited ClassInfo := ended (Plain.resolve h name)

/-- Walks along superclasses to the target. The start is not among the names seen at first, so a cycle through
it is walked through once and noticed in the second turn. -/
def climb (h : Hierarchy) (target : String) : Nat → List String → ClassInfo → Limited Bool
  | 0, _, _ => cutShort
  | rounds + 1, seen, current =>
    if current.name = target then return true
    else current.superName.elim (return false) fun above =>
      if above ∈ seen then throw (.cyclic above)
      else do
        let next ← resolve h above
        climb h target rounds (above :: seen) next

/-- Searches for the interfaces of a class, at most so deep. -/
def collect (h : Hierarchy) : Nat → List String → String → Limited NameSet
  | 0, _, _ => cutShort
  | depth + 1, visiting, name =>
    if name ∈ visiting then throw (.cyclic name)
    else do
      let info ← resolve h name
      info.closure (collect h depth (name :: visiting))

def isSubtype (h : Hierarchy) (limit : Nat) (super sub : String) : Limited Bool := do
  let target ← resolve h super
  if target.isInterface then
    let closure ← collect h limit [] sub
    return closure.contains target.name
  else
    let start ← resolve h sub
    climb h target.name limit [] start

/-- Moves the second class up until the two are comparable. -/
def meet (h : Hierarchy) (limit : Nat) (a : ClassInfo) : Nat → List String → ClassInfo → Limited ClassInfo
  | 0, _, _ => cutShort
  | rounds + 1, seen, b => do
    if a.name = ClassInfo.rootName then return a
    else if b.name = ClassInfo.rootName then return b
    else if ← isSubtype h limit a.name b.name then return a
    else if ← isSubtype h limit b.name a.name then return b
    else if a.isInterface || b.isInterface then resolve h ClassInfo.rootName
    else
      let above := b.superName.getD ClassInfo.rootName
      if above ∈ seen then throw (.cyclic above)
      else
        let next ← resolve h above
        meet h limit a rounds (above :: seen) next

def commonSuperclass (h : Hierarchy) (limit : Nat) (a b : String) : Limited ClassInfo := do
  let a ← resolve h a
  let b ← resolve h b
  meet h limit a limit [] b

end Limited

/-! ## The limit is enough -/

namespace Hierarchy

variable {h : Hierarchy}

/-- The known names are those seen and those that may still be visited. -/
structure Splits (h : Hierarchy) (seen remaining : List String) : Prop where
  known : ∀ name ∈ seen, h.Knows name
  mem_iff : ∀ name, h.Knows name → (name ∈ remaining ↔ name ∉ seen)

theorem splits_names (h : Hierarchy) : h.Splits [] h.names where
  known _ hmem := by simp at hmem
  mem_iff _ hknows := by simp [mem_names_of_lookup? hknows]

namespace Splits

variable {seen remaining : List String} {name : String}

theorem visit (hsplits : h.Splits seen remaining) (hname : h.Knows name) :
    h.Splits (name :: seen) (without name remaining) where
  known other hmem := by
    rcases List.mem_cons.mp hmem with rfl | hmem
    · exact hname
    · exact hsplits.known other hmem
  mem_iff other hother := by
    rw [mem_without, hsplits.mem_iff other hother, List.mem_cons, not_or, and_comm]

/-- A round finds out in its own order whether the name was seen and whether it is known. -/
theorem resolve_next {α : Type} (hsplits : h.Splits seen remaining) (name : String)
    {f : ClassInfo → Limited α} {g : ClassInfo → Except Error α}
    (hnext : ∀ info, h.lookup? name = some info → name ∈ remaining → f info = .ended (g info)) :
    (if name ∈ seen then throw (.cyclic name) else Limited.resolve h name >>= f) =
      .ended (Plain.resolve h name >>= fun info =>
        if name ∈ remaining then g info else throw (.cyclic name)) := by
  by_cases hseen : name ∈ seen
  · have hknows := hsplits.known name hseen
    obtain ⟨info, hinfo⟩ := Option.isSome_iff_exists.mp hknows
    have hmem : name ∉ remaining := fun hmem => (hsplits.mem_iff name hknows).mp hmem hseen
    rw [if_pos hseen, Plain.resolve_eq_ok.mpr hinfo]
    change _ = Limited.ended (if name ∈ remaining then g info else _)
    rw [if_neg hmem]
    rfl
  · rw [if_neg hseen]
    refine Limited.ended_bind fun info hinfo => ?_
    have hname := Plain.resolve_eq_ok.mp hinfo
    have hmem : name ∈ remaining := (hsplits.mem_iff name (knows_of_lookup? hname)).mpr hseen
    rw [if_pos hmem]
    exact hnext info hname hmem

theorem climb_eq (hsplits : h.Splits seen remaining) (target : String) {rounds : Nat}
    (hrounds : remaining.length < rounds) (current : ClassInfo) :
    Limited.climb h target rounds seen current = .ended (Plain.climb h target remaining current) := by
  induction rounds generalizing seen remaining current with
  | zero => exact absurd hrounds (Nat.not_lt_zero _)
  | succ rounds ih =>
    rw [Limited.climb, Plain.climb]
    by_cases htarget : current.name = target
    · rw [if_pos htarget, if_pos htarget]
      rfl
    rw [if_neg htarget, if_neg htarget]
    cases current.superName with
    | none => rfl
    | some above =>
      simp only [Option.elim_some, dite_eq_ite]
      refine hsplits.resolve_next above fun next hnext hmem => ?_
      have hshorter := length_without_lt hmem
      exact ih (hsplits.visit (knows_of_lookup? hnext)) (by omega) next

theorem collect_eq (hsplits : h.Splits seen remaining) {depth : Nat}
    (hdepth : remaining.length < depth) (name : String) :
    Limited.collect h depth seen name = .ended (Plain.collect h remaining name) := by
  induction depth generalizing seen remaining name with
  | zero => exact absurd hdepth (Nat.not_lt_zero _)
  | succ depth ih =>
    rw [Limited.collect, Plain.collect]
    simp only [dite_eq_ite]
    refine hsplits.resolve_next name fun info hinfo hmem => ?_
    have hshorter := length_without_lt hmem
    exact Limited.closure_eq_ended fun above _ =>
      ih (hsplits.visit (knows_of_lookup? hinfo)) (by omega) above

end Splits

section Limit

variable {limit : Nat} (hlimit : h.names.length < limit)

include hlimit

theorem limited_isSubtype_eq (super sub : String) :
    Limited.isSubtype h limit super sub = .ended (Plain.isSubtype h super sub) := by
  refine Limited.ended_bind fun target _ => ?_
  split
  · rw [h.splits_names.collect_eq hlimit]
    exact Limited.ended_bind fun _ _ => rfl
  · exact Limited.ended_bind fun start _ => h.splits_names.climb_eq target.name hlimit start

theorem Splits.meet_eq {seen remaining : List String} (hsplits : h.Splits seen remaining) (a : ClassInfo)
    {rounds : Nat} (hrounds : remaining.length < rounds) (b : ClassInfo) :
    Limited.meet h limit a rounds seen b = .ended (Plain.meet h a remaining b) := by
  induction rounds generalizing seen remaining b with
  | zero => exact absurd hrounds (Nat.not_lt_zero _)
  | succ rounds ih =>
    rw [Limited.meet, Plain.meet]
    split
    · rfl
    split
    · rfl
    rw [limited_isSubtype_eq hlimit, limited_isSubtype_eq hlimit]
    refine Limited.ended_bind fun above _ => ?_
    split
    · rfl
    refine Limited.ended_bind fun below _ => ?_
    split
    · rfl
    split
    · rfl
    simp only [dite_eq_ite]
    refine hsplits.resolve_next _ fun next hnext hmem => ?_
    have hshorter := length_without_lt hmem
    exact ih (hsplits.visit (knows_of_lookup? hnext)) (by omega) next

theorem limited_commonSuperclass_eq (a b : String) :
    Limited.commonSuperclass h limit a b = .ended (Plain.commonSuperclass h a b) := by
  refine Limited.ended_bind fun a _ => Limited.ended_bind fun b _ => ?_
  exact h.splits_names.meet_eq hlimit a hlimit b

end Limit

end Hierarchy

end Classmith
