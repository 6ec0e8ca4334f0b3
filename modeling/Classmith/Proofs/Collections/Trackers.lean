import Classmith.Collections
import Classmith.Proofs.Hierarchy.Joins

/-!
# What is known of collections

A visit of a method body tells something of a collection if it adds an element to one or returns one. What
is known of the collections of a method only ever rises: a merge lies above what it merges, so the type that
is known of a collection, or of all that are returned, stays above every type that went into it.
-/
namespace Classmith

open Collections
open Simulation (State Visit)

/-! ## Results -/

section Except

variable {ε α β : Type} {x : Except ε α}

theorem eq_ok_of_toOption {a : α} (hx : x.toOption = some a) : x = .ok a := by
  cases x with
  | error e => cases hx
  | ok b => exact congrArg Except.ok (Option.some.inj hx)

theorem exists_of_map_eq_ok {f : α → β} {b : β} (hmap : x.map f = .ok b) : ∃ a, x = .ok a ∧ f a = b := by
  cases x with
  | error e => cases hmap
  | ok a => exact ⟨a, rfl, Except.ok.inj hmap⟩

theorem exists_of_bind_eq_ok {f : α → Except ε β} {b : β} (hbind : x >>= f = .ok b) :
    ∃ a, x = .ok a ∧ f a = .ok b := by
  cases x with
  | error e => cases hbind
  | ok a => exact ⟨a, rfl, hbind⟩

end Except

/-! ## Answers that do not depend on what is remembered -/

/-- What a query answers with nothing remembered. -/
def Query.answer {α : Type} (q : Query α) : Except Error α := (q Memo.empty).1

namespace Hierarchy

variable {h : Hierarchy} {α β : Type}

/-- What is remembered makes no difference to the answer. -/
def Steady (h : Hierarchy) (q : Query α) : Prop := h.Answers q (Query.answer q)

theorem Answers.answer_eq {q : Query α} {x : Except Error α} (hq : h.Answers q x) : Query.answer q = x :=
  (hq Memo.empty (Memo.faithful_empty h)).1

theorem Answers.bind_ok {q : Query α} {f : α → Query β} {a : α} {y : Except Error β}
    (hq : h.Answers q (.ok a)) (hf : h.Answers (f a) y) : h.Answers (q >>= f) y := by
  have hbind := answers_bind (y := fun _ => y) hq fun b hb => Except.ok.inj hb ▸ hf
  exact hbind

theorem Answers.steady {q : Query α} {x : Except Error α} (hq : h.Answers q x) : h.Steady q := by
  rw [Steady, hq.answer_eq]
  exact hq

theorem Steady.bind {q : Query α} {f : α → Query β} (hq : h.Steady q) (hf : ∀ a, h.Steady (f a)) :
    h.Steady (q >>= f) :=
  (answers_bind hq fun a _ => hf a).steady

theorem Steady.answer_bind {q : Query α} {f : α → Query β} (hq : h.Steady q) (hf : ∀ a, h.Steady (f a)) :
    Query.answer (q >>= f) = Query.answer q >>= fun a => Query.answer (f a) :=
  (answers_bind hq fun a _ => hf a).answer_eq

theorem Steady.of_answer_bind {q : Query α} {f : α → Query β} {b : β} (hq : h.Steady q)
    (hf : ∀ a, h.Steady (f a)) (hb : Query.answer (q >>= f) = .ok b) :
    ∃ a, Query.answer q = .ok a ∧ Query.answer (f a) = .ok b := by
  rw [hq.answer_bind hf] at hb
  exact exists_of_bind_eq_ok hb

theorem steady_pure (a : α) : h.Steady (pure a : Query α) := (answers_pure a).steady

theorem answer_foldlM {f : β → α → Query β} (hf : ∀ b a, h.Steady (f b a)) (l : List α) (start : β) :
    h.Answers (l.foldlM f start) (l.foldlM (fun b a => Query.answer (f b a)) start) :=
  answers_foldlM (fun b a _ => hf b a) start

/-- A query that fails may be attempted: it then answers that there is no answer. -/
theorem answers_attempt {q : Query α} {x : Except Error α} (hq : h.Answers q x) :
    h.Answers (attempt q) (.ok x.toOption) := by
  intro memo hmemo
  obtain ⟨hanswer, hafter⟩ := hq memo hmemo
  unfold attempt
  rcases hrun : q memo with ⟨answer, after⟩
  rw [hrun] at hanswer hafter
  subst hanswer
  cases answer with
  | ok a => exact ⟨rfl, hafter⟩
  | error e => exact ⟨rfl, hafter⟩

end Hierarchy

/-! ## Merges -/

namespace Collections.Tracker

variable {h : Hierarchy}

theorem answers_isCollection (name : String) : h.Answers (isCollection h name)
    ((Plain.collect h h.names name).map fun s => s.contains collectionName) := by
  have hmap : ((Plain.collect h h.names name).map fun s => s.contains collectionName) =
      Plain.collect h h.names name >>= fun s => .ok (s.contains collectionName) := by
    cases Plain.collect h h.names name <;> rfl
  rw [hmap]
  exact Hierarchy.answers_bind (Hierarchy.answers_allInterfaces name) fun s _ => Hierarchy.answers_pure _

theorem answers_merge_none (added : String) :
    h.Answers (merge h none added) (Plain.resolve h added >>= fun info => .ok info.name) :=
  Hierarchy.answers_bind (Hierarchy.answers_resolve added) fun _ _ => Hierarchy.answers_pure _

theorem answers_merge_some (known added : String) : h.Answers (merge h (some known) added)
    (Plain.commonSuperclass h known added >>= fun info => .ok info.name) :=
  Hierarchy.answers_bind (Hierarchy.answers_commonSuperclass known added) fun _ _ =>
    Hierarchy.answers_pure _

theorem steady_merge (known : Option String) (added : String) : h.Steady (merge h known added) := by
  cases known with
  | none => exact (answers_merge_none added).steady
  | some known => exact (answers_merge_some known added).steady

section WellFormed

variable (hwf : h.WellFormed)

include hwf

theorem merge_none_of_knows {added : String} (hadded : h.Knows added) :
    Query.answer (merge h none added) = .ok added := by
  obtain ⟨info, hinfo⟩ := Option.isSome_iff_exists.mp hadded
  rw [(answers_merge_none added).answer_eq, Plain.resolve_eq_ok.mpr hinfo]
  exact congrArg Except.ok (hwf.named added info hinfo)

theorem merge_some_of_knows {known added : String} (hknown : h.Knows known) (hadded : h.Knows added) :
    ∃ merged, Query.answer (merge h (some known) added) = .ok merged ∧ h.Merges known added merged := by
  obtain ⟨info, hinfo, -, hmerges⟩ := hwf.commonSuperclass_spec hknown hadded
  refine ⟨info.name, ?_, hmerges⟩
  rw [(answers_merge_some known added).answer_eq, hinfo]
  rfl

omit hwf in
/-- Names that no source knows are not merged. -/
theorem knows_of_merge {known : Option String} {added merged : String}
    (hmerge : Query.answer (merge h known added) = .ok merged) :
    h.Knows added ∧ ∀ k, known = some k → h.Knows k := by
  have hresolve : ∀ {name : String} {info : ClassInfo}, Plain.resolve h name = .ok info → h.Knows name :=
    fun hname => Hierarchy.knows_of_lookup? (Plain.resolve_eq_ok.mp hname)
  cases known with
  | none =>
    rw [(answers_merge_none added).answer_eq] at hmerge
    obtain ⟨info, hadded, -⟩ := exists_of_bind_eq_ok hmerge
    exact ⟨hresolve hadded, fun k hk => by cases hk⟩
  | some k =>
    rw [(answers_merge_some k added).answer_eq, Plain.commonSuperclass] at hmerge
    obtain ⟨_, hcommon, -⟩ := exists_of_bind_eq_ok hmerge
    obtain ⟨_, hk, hcommon⟩ := exists_of_bind_eq_ok hcommon
    obtain ⟨_, hadded, -⟩ := exists_of_bind_eq_ok hcommon
    refine ⟨hresolve hadded, fun other hother => ?_⟩
    cases hother
    exact hresolve hk

/-- A merge lies above what it merges. -/
theorem below_of_merge {known : Option String} {added merged : String}
    (hmerge : Query.answer (merge h known added) = .ok merged) :
    h.Below added merged ∧ ∀ k, known = some k → h.Below k merged := by
  obtain ⟨hadded, hknown⟩ := knows_of_merge hmerge
  cases known with
  | none =>
    rw [merge_none_of_knows hwf hadded] at hmerge
    cases hmerge
    exact ⟨.refl, fun k hk => by cases hk⟩
  | some k =>
    obtain ⟨other, hother, hmerges⟩ := merge_some_of_knows hwf (hknown k rfl) hadded
    rw [hother] at hmerge
    cases hmerge
    refine ⟨hmerges.right, fun other hother => ?_⟩
    cases hother
    exact hmerges.left

end WellFormed

end Collections.Tracker

/-! ## Visits -/

/-- The value that an addition adds to, given by its number, and the class of the element that is added,
if it is an object. -/
def Simulation.State.addition? (s : State) : Option (Nat × String) :=
  (s.peek? 0).bind fun element => (s.peek? 1).bind fun receiver =>
    element.className?.map fun type => (receiver.stripCasts.id, type)

namespace Simulation.Visit

/-- The visit is of a call that adds an element of a class to a collection, given by the number of its
value. -/
def Adds (h : Hierarchy) (v : Visit) (id : Nat) (type : String) : Prop :=
  ∃ opcode owner isInterface, v.instruction = .method opcode owner "add" addDescriptor isInterface ∧
    h.Implements owner collectionName ∧ v.before.addition? = some (id, type)

/-- The visit is of an instruction that returns a value, given by its number. -/
def Returns (v : Visit) (id : Nat) : Prop :=
  v.instruction = .insn 0xb0 ∧ (v.before.peek? 0).map (fun top => top.stripCasts.id) = some id

/-- Instructions that tell nothing of any collection, whatever stands on the stack. -/
def isIdle (v : Visit) : Bool :=
  match v.instruction with
  | .method _ _ name descriptor _ => !(name == "add" && descriptor == addDescriptor)
  | .insn opcode => opcode != 0xb0
  | _ => true

theorem eq_of_isIdle_eq_false {v : Visit} (hv : v.isIdle = false) : v.instruction = .insn 0xb0 ∨
    ∃ opcode owner isInterface, v.instruction = .method opcode owner "add" addDescriptor isInterface := by
  rw [isIdle] at hv
  split at hv
  case h_1 opcode owner name descriptor isInterface hcall =>
    obtain ⟨rfl, rfl⟩ : name = "add" ∧ descriptor = addDescriptor := by simpa using hv
    exact Or.inr ⟨opcode, owner, isInterface, hcall⟩
  case h_2 opcode hinsn =>
    obtain rfl : opcode = 0xb0 := by simpa using hv
    exact Or.inl hinsn
  case h_3 => cases hv

theorem Returns.isIdle_eq_false {v : Visit} {id : Nat} (hv : v.Returns id) : v.isIdle = false := by
  rw [isIdle, hv.1]
  rfl

theorem Adds.isIdle_eq_false {h : Hierarchy} {v : Visit} {id : Nat} {type : String}
    (hv : v.Adds h id type) : v.isIdle = false := by
  obtain ⟨opcode, owner, isInterface, hcall, -⟩ := hv
  rw [isIdle, hcall]
  rfl

theorem Adds.unique {h : Hierarchy} {v : Visit} {id id' : Nat} {type type' : String}
    (hv : v.Adds h id type) (hv' : v.Adds h id' type') : id' = id ∧ type' = type := by
  obtain ⟨_, _, _, -, -, hadds⟩ := hv
  obtain ⟨_, _, _, -, -, hadds'⟩ := hv'
  rw [hadds] at hadds'
  cases hadds'
  exact ⟨rfl, rfl⟩

theorem Returns.unique {v : Visit} {id id' : Nat} (hv : v.Returns id) (hv' : v.Returns id') : id' = id := by
  have hid := hv.2.symm.trans hv'.2
  exact (Option.some.inj hid).symm

theorem Adds.not_returns {h : Hierarchy} {v : Visit} {id id' : Nat} {type : String} (hv : v.Adds h id type) :
    ¬v.Returns id' := by
  rintro ⟨hreturn, -⟩
  obtain ⟨opcode, owner, isInterface, hcall, -⟩ := hv
  rw [hreturn] at hcall
  cases hcall

end Simulation.Visit

namespace Collections.Tracker

variable {h : Hierarchy}

/-- The tracker after a type was merged into what is known of a collection. -/
def learn (t : Tracker) (id : Nat) (merged : String) : Tracker :=
  { t with elements := (id, merged) :: t.elements }

/-- The tracker after a type was merged into what is known of the returned collections. -/
def give (t : Tracker) (merged : String) : Tracker := { t with returned := some merged }

theorem element?_learn (t : Tracker) (id : Nat) (merged : String) (other : Nat) :
    (t.learn id merged).element? other = if other = id then some merged else t.element? other := by
  by_cases hid : other = id
  · simp [element?, learn, hid]
  · simp [element?, learn, hid, List.lookup_cons, beq_false_of_ne hid]

/-- Merges a type into what is known of a collection. -/
def absorb (h : Hierarchy) (t : Tracker) (id : Nat) (type : String) : Query Tracker := do
  let merged ← merge h (t.element? id) type
  return t.learn id merged

/-- Merges a type into what is known of the returned collections. -/
def release (h : Hierarchy) (t : Tracker) (element : String) : Query Tracker := do
  let merged ← merge h t.returned element
  return t.give merged

theorem noteAdd_eq (owner : String) (s : State) (t : Tracker) : noteAdd h owner s t =
    isCollection h owner >>= fun b =>
      (if b = true then s.addition? else none).elim (pure t) fun e => t.absorb h e.1 e.2 := by
  refine bind_congr fun b => ?_
  cases b with
  | false => rfl
  | true =>
    rw [State.addition?, State.peek?, State.peek?]
    rcases s.stack with _ | ⟨element, _ | ⟨receiver, rest⟩⟩
    · rfl
    · rfl
    · simp only [List.getElem?_cons_zero, List.getElem?_cons_succ, Option.bind_some]
      cases element.className? <;> rfl

theorem noteReturn_eq (s : State) (t : Tracker) : noteReturn h s t =
    ((s.peek? 0).bind fun top => t.element? top.stripCasts.id).elim (pure t) (t.release h) := by
  rw [noteReturn, State.peek?]
  rcases s.stack with _ | ⟨top, rest⟩
  · rfl
  · simp only [List.getElem?_cons_zero, Option.bind_some]
    cases t.element? top.stripCasts.id <;> rfl

theorem steady_isCollection (name : String) : h.Steady (isCollection h name) :=
  (answers_isCollection name).steady

theorem steady_absorb (t : Tracker) (id : Nat) (type : String) : h.Steady (t.absorb h id type) :=
  (steady_merge _ type).bind fun _ => Hierarchy.steady_pure _

theorem steady_release (t : Tracker) (element : String) : h.Steady (t.release h element) :=
  (steady_merge _ element).bind fun _ => Hierarchy.steady_pure _

theorem steady_noteAdd (s : State) (t : Tracker) (b : Bool) : h.Steady
    ((if b = true then s.addition? else none).elim (pure t) fun e => t.absorb h e.1 e.2) := by
  cases (if b = true then s.addition? else none) with
  | none => exact Hierarchy.steady_pure t
  | some e => exact steady_absorb t e.1 e.2

theorem steady_visit (t : Tracker) (v : Visit) : h.Steady (t.visit h v) := by
  unfold visit
  split
  · split
    · rw [noteAdd_eq]
      exact (steady_isCollection _).bind (steady_noteAdd v.before t)
    · exact Hierarchy.steady_pure t
  · rw [noteReturn_eq]
    cases (v.before.peek? 0).bind fun top => t.element? top.stripCasts.id with
    | none => exact Hierarchy.steady_pure t
    | some element => exact steady_release t element
  · exact Hierarchy.steady_pure t

theorem answer_absorb (t : Tracker) (id : Nat) (type : String) : Query.answer (t.absorb h id type) =
    (Query.answer (merge h (t.element? id) type)).map (t.learn id) := by
  rw [absorb, (steady_merge _ type).answer_bind fun merged => Hierarchy.steady_pure (t.learn id merged)]
  cases Query.answer (merge h (t.element? id) type) <;> rfl

theorem answer_release (t : Tracker) (element : String) : Query.answer (t.release h element) =
    (Query.answer (merge h t.returned element)).map t.give := by
  rw [release, (steady_merge _ element).answer_bind fun merged => Hierarchy.steady_pure (t.give merged)]
  cases Query.answer (merge h t.returned element) <;> rfl

theorem of_answer_isCollection {name : String} {b : Bool}
    (hb : Query.answer (isCollection h name) = .ok b) : b = true ↔ h.Implements name collectionName := by
  rw [(answers_isCollection name).answer_eq] at hb
  obtain ⟨s, hs, rfl⟩ := exists_of_map_eq_ok hb
  exact (Plain.collect_ok hs).2.2 collectionName

theorem answers_isCollection_true (hwf : h.WellFormed) {name : String}
    (hname : h.Implements name collectionName) : h.Answers (isCollection h name) (.ok true) := by
  have hknows : h.Knows name := by
    obtain ⟨above, info, hbelow, hinfo, -⟩ := hname
    exact (Hierarchy.knows_of_lookup? hinfo).of_below hbelow
  obtain ⟨s, hs⟩ := Plain.exists_collect (hwf.grounded hknows) fun above hbelow =>
    Hierarchy.mem_names_of_lookup? (hwf.knows_of_below hknows hbelow)
  have hanswers := answers_isCollection (h := h) name
  rw [hs] at hanswers
  rwa [Except.map, ((Plain.collect_ok hs).2.2 collectionName).mpr hname] at hanswers

theorem visit_of_returns {v : Visit} {id : Nat} (hv : v.Returns id) (t : Tracker) : t.visit h v =
    (t.element? id).elim (pure t) (t.release h) := by
  obtain ⟨hreturn, hid⟩ := hv
  obtain ⟨top, htop, rfl⟩ := Option.map_eq_some_iff.mp hid
  rw [visit, hreturn]
  exact (noteReturn_eq v.before t).trans (by rw [htop, Option.bind_some])

theorem visit_of_call {v : Visit} {opcode : UInt8} {owner : String} {isInterface : Bool}
    (hv : v.instruction = .method opcode owner "add" addDescriptor isInterface) (t : Tracker) :
    t.visit h v = t.noteAdd h owner v.before := by
  rw [visit, hv]
  exact if_pos ⟨rfl, rfl⟩

theorem answer_visit_of_adds (hwf : h.WellFormed) {v : Visit} {id : Nat} {type : String}
    (hv : v.Adds h id type) (t : Tracker) :
    Query.answer (t.visit h v) = Query.answer (t.absorb h id type) := by
  obtain ⟨opcode, owner, isInterface, hcall, himplements, haddition⟩ := hv
  rw [visit_of_call hcall, noteAdd_eq]
  refine ((answers_isCollection_true hwf himplements).bind_ok ?_).answer_eq
  rw [if_pos rfl, haddition]
  exact steady_absorb t id type

theorem visit_of_isIdle {v : Visit} (hv : v.isIdle = true) (t : Tracker) : t.visit h v = pure t := by
  rw [visit]
  split
  case h_1 hcall =>
    refine if_neg ?_
    rintro ⟨rfl, rfl⟩
    simp [Visit.isIdle, hcall] at hv
  case h_2 hreturn => simp [Visit.isIdle, hreturn] at hv
  case h_3 => rfl

end Collections.Tracker

/-! ## Finding what a visit tells -/

namespace Simulation.Visit

variable {h : Hierarchy} {v : Visit} {id : Nat}

/-- What a visit adds, and to which collection. -/
def added? (h : Hierarchy) (v : Visit) : Option (Nat × String) :=
  match v.instruction with
  | .method _ owner name descriptor _ =>
    if name = "add" ∧ descriptor = addDescriptor ∧
        (Query.answer (Tracker.isCollection h owner)).toOption = some true then
      v.before.addition?
    else none
  | _ => none

/-- The value that a visit returns. -/
def returned? (v : Visit) : Option Nat :=
  match v.instruction with
  | .insn 0xb0 => (v.before.peek? 0).map fun top => top.stripCasts.id
  | _ => none

theorem adds_of_added? {type : String} (hv : v.added? h = some (id, type)) : v.Adds h id type := by
  rw [added?] at hv
  split at hv
  · rename_i opcode owner name descriptor isInterface hcall
    obtain ⟨⟨rfl, rfl, hcollection⟩, haddition⟩ := Option.ite_none_right_eq_some.mp hv
    have himplements := Tracker.of_answer_isCollection (eq_ok_of_toOption hcollection)
    exact ⟨opcode, owner, isInterface, hcall, himplements.mp rfl, haddition⟩
  · cases hv

theorem returns_of_returned? (hv : v.returned? = some id) : v.Returns id := by
  rw [returned?] at hv
  split at hv
  · rename_i hreturn
    exact ⟨hreturn, hv⟩
  · cases hv

end Simulation.Visit

/-! ## Steps -/

namespace Collections.Tracker

variable {h : Hierarchy}

/-- Everything that a visit can do. -/
inductive Noted (h : Hierarchy) (v : Visit) (t : Tracker) : Tracker → Prop
  /-- The type of an added element is merged into what is known of the collection. -/
  | added {id : Nat} {type merged : String} (adds : v.Adds h id type)
    (merges : Query.answer (merge h (t.element? id) type) = .ok merged) : Noted h v t (t.learn id merged)
  /-- What is known of a returned collection is merged into what is known of all that are returned. -/
  | returned {id : Nat} {element merged : String} (returns : v.Returns id)
    (known : t.element? id = some element)
    (merges : Query.answer (merge h t.returned element) = .ok merged) : Noted h v t (t.give merged)
  | unchanged (adds : ∀ id type, ¬v.Adds h id type) (returns : ∀ id, v.Returns id → t.element? id = none) :
    Noted h v t t

theorem noted_of_call {t t' : Tracker} {v : Visit} {opcode : UInt8} {owner : String} {isInterface : Bool}
    (hcall : v.instruction = .method opcode owner "add" addDescriptor isInterface)
    (hvisit : Query.answer (t.visit h v) = .ok t') : Noted h v t t' := by
  rw [visit_of_call hcall, noteAdd_eq] at hvisit
  obtain ⟨b, hb, hvisit⟩ := (steady_isCollection owner).of_answer_bind (steady_noteAdd v.before t) hvisit
  have himplements := of_answer_isCollection hb
  cases haddition : (if b = true then v.before.addition? else none) with
  | none =>
    rw [haddition] at hvisit
    obtain rfl := Except.ok.inj hvisit
    refine .unchanged (fun id type hadds => ?_) fun id hreturns => ?_
    · obtain ⟨_, other, _, hcall', himplements', haddition'⟩ := hadds
      rw [hcall] at hcall'
      cases hcall'
      rw [if_pos (himplements.mpr himplements'), haddition'] at haddition
      cases haddition
    · have hreturn := hreturns.1
      rw [hcall] at hreturn
      cases hreturn
  | some e =>
    rw [haddition] at hvisit
    obtain ⟨rfl, haddition⟩ : b = true ∧ v.before.addition? = some e := by simpa using haddition
    rw [Option.elim_some, answer_absorb] at hvisit
    obtain ⟨merged, hmerge, rfl⟩ := exists_of_map_eq_ok hvisit
    exact .added ⟨opcode, owner, isInterface, hcall, himplements.mp rfl, haddition⟩ hmerge

theorem noted_of_return {t t' : Tracker} {v : Visit} (hreturn : v.instruction = .insn 0xb0)
    (hvisit : Query.answer (t.visit h v) = .ok t') : Noted h v t t' := by
  have hadds : ∀ id type, ¬v.Adds h id type := by
    rintro id type ⟨_, _, _, hcall, -⟩
    rw [hreturn] at hcall
    cases hcall
  cases htop : v.before.peek? 0 with
  | none =>
    have hvisit' : t.visit h v = pure t := by
      rw [visit, hreturn]
      exact (noteReturn_eq v.before t).trans (by rw [htop]; rfl)
    rw [hvisit'] at hvisit
    obtain rfl := Except.ok.inj hvisit
    refine .unchanged hadds fun id hreturns => ?_
    have hid := hreturns.2
    rw [htop] at hid
    cases hid
  | some top =>
    have hreturns : v.Returns top.stripCasts.id := ⟨hreturn, by rw [htop, Option.map_some]⟩
    rw [visit_of_returns hreturns] at hvisit
    cases helement : t.element? top.stripCasts.id with
    | none =>
      rw [helement] at hvisit
      obtain rfl := Except.ok.inj hvisit
      refine .unchanged hadds fun id hreturns' => ?_
      rwa [hreturns.unique hreturns']
    | some element =>
      rw [helement] at hvisit
      rw [Option.elim_some, answer_release] at hvisit
      obtain ⟨merged, hmerge, rfl⟩ := exists_of_map_eq_ok hvisit
      exact .returned hreturns helement hmerge

theorem noted_of_visit {t t' : Tracker} {v : Visit} (hvisit : Query.answer (t.visit h v) = .ok t') :
    Noted h v t t' := by
  cases hidle : v.isIdle with
  | true =>
    rw [visit_of_isIdle hidle] at hvisit
    obtain rfl := Except.ok.inj hvisit
    refine .unchanged (fun id type hadds => ?_) fun id hreturns => ?_
    · rw [hadds.isIdle_eq_false] at hidle
      cases hidle
    · rw [hreturns.isIdle_eq_false] at hidle
      cases hidle
  | false =>
    rcases Visit.eq_of_isIdle_eq_false hidle with hreturn | ⟨opcode, owner, isInterface, hcall⟩
    · exact noted_of_return hreturn hvisit
    · exact noted_of_call hcall hvisit

/-! ## Runs -/

/-- What is known rises: it stays known, and the type that is known later lies above. -/
structure Rises (h : Hierarchy) (t t' : Tracker) : Prop where
  element : ∀ id type, t.element? id = some type → ∃ type', t'.element? id = some type' ∧ h.Below type type'
  returned : ∀ type, t.returned = some type → ∃ type', t'.returned = some type' ∧ h.Below type type'

theorem Rises.refl (h : Hierarchy) (t : Tracker) : Rises h t t where
  element _ type htype := ⟨type, htype, .refl⟩
  returned type htype := ⟨type, htype, .refl⟩

theorem Rises.trans {t t' t'' : Tracker} (ht : Rises h t t') (ht' : Rises h t' t'') : Rises h t t'' where
  element id type htype := by
    obtain ⟨type', htype', hbelow⟩ := ht.element id type htype
    obtain ⟨type'', htype'', hbelow'⟩ := ht'.element id type' htype'
    exact ⟨type'', htype'', hbelow.trans hbelow'⟩
  returned type htype := by
    obtain ⟨type', htype', hbelow⟩ := ht.returned type htype
    obtain ⟨type'', htype'', hbelow'⟩ := ht'.returned type' htype'
    exact ⟨type'', htype'', hbelow.trans hbelow'⟩

theorem Noted.rises (hwf : h.WellFormed) {v : Visit} {t t' : Tracker} (hnoted : Noted h v t t') :
    Rises h t t' := by
  cases hnoted with
  | @added id type merged hadds hmerge =>
    refine ⟨fun other known hknown => ?_, fun known hknown => ⟨known, hknown, .refl⟩⟩
    rw [element?_learn]
    by_cases hother : other = id
    · subst hother
      exact ⟨merged, if_pos rfl, (below_of_merge hwf hmerge).2 known hknown⟩
    · exact ⟨known, by rw [if_neg hother, hknown], .refl⟩
  | @returned id element merged hreturns hknown hmerge =>
    exact ⟨fun other known hknown => ⟨known, hknown, .refl⟩,
      fun known hknown => ⟨merged, rfl, (below_of_merge hwf hmerge).2 known hknown⟩⟩
  | unchanged => exact .refl h t

/-- After an element was added, the type that is known of the collection lies above its type. -/
theorem Noted.below_of_adds (hwf : h.WellFormed) {v : Visit} {t t' : Tracker} (hnoted : Noted h v t t')
    {id : Nat} {type : String} (hv : v.Adds h id type) :
    ∃ known, t'.element? id = some known ∧ h.Below type known := by
  cases hnoted with
  | @added id' type' merged hadds hmerge =>
    obtain ⟨rfl, rfl⟩ := hadds.unique hv
    exact ⟨merged, by rw [element?_learn, if_pos rfl], (below_of_merge hwf hmerge).1⟩
  | returned hreturns => exact absurd hreturns hv.not_returns
  | unchanged hadds => exact absurd hv (hadds id type)

/-- After a collection was returned, the type that is known of all that are returned lies above its type. -/
theorem Noted.below_of_returns (hwf : h.WellFormed) {v : Visit} {t t' : Tracker} (hnoted : Noted h v t t')
    {id : Nat} {element : String} (hv : v.Returns id) (helement : t.element? id = some element) :
    ∃ known, t'.returned = some known ∧ h.Below element known := by
  cases hnoted with
  | added hadds => exact absurd hv hadds.not_returns
  | @returned id' element' merged hreturns hknown hmerge =>
    rw [hreturns.unique hv, hknown] at helement
    cases helement
    exact ⟨merged, rfl, (below_of_merge hwf hmerge).1⟩
  | unchanged _ hreturns =>
    rw [hreturns id hv] at helement
    cases helement

/-- Visits that note what they tell one after the other. -/
def follow (h : Hierarchy) (visits : List Visit) (t : Tracker) : Except Error Tracker :=
  visits.foldlM (fun t v => Query.answer (t.visit h v)) t

theorem answers_follow (visits : List Visit) (t : Tracker) :
    h.Answers (visits.foldlM (Tracker.visit h) t) (follow h visits t) :=
  Hierarchy.answer_foldlM steady_visit visits t

theorem follow_cons_ok {v : Visit} {rest : List Visit} {t t' : Tracker}
    (hfollow : follow h (v :: rest) t = .ok t') :
    ∃ next, Noted h v t next ∧ follow h rest next = .ok t' := by
  rw [follow, List.foldlM_cons] at hfollow
  obtain ⟨next, hvisit, hrest⟩ := exists_of_bind_eq_ok hfollow
  exact ⟨next, noted_of_visit hvisit, hrest⟩

theorem rises_of_follow (hwf : h.WellFormed) {visits : List Visit} {t t' : Tracker}
    (hfollow : follow h visits t = .ok t') : Rises h t t' := by
  induction visits generalizing t with
  | nil =>
    obtain rfl := Except.ok.inj hfollow
    exact .refl h t
  | cons v rest ih =>
    obtain ⟨next, hnoted, hrest⟩ := follow_cons_ok hfollow
    exact (hnoted.rises hwf).trans (ih hrest)

/-- The type of an element stays below what is known of its collection, and from the return of the collection
on below what is known of all that are returned. -/
theorem below_of_returns (hwf : h.WellFormed) {visits : List Visit} {t t' : Tracker} {id r : Nat}
    {type known : String} {v : Visit} (hfollow : follow h visits t = .ok t')
    (hknown : t.element? id = some known) (hbelow : h.Below type known) (hr : visits[r]? = some v)
    (hv : v.Returns id) : ∃ returned, t'.returned = some returned ∧ h.Below type returned := by
  induction visits generalizing t known r with
  | nil => simp at hr
  | cons first rest ih =>
    obtain ⟨next, hnoted, hrest⟩ := follow_cons_ok hfollow
    cases r with
    | zero =>
      obtain rfl : first = v := by simpa using hr
      obtain ⟨given, hgiven, hbelow'⟩ := hnoted.below_of_returns hwf hv hknown
      obtain ⟨last, hlast, hbelow''⟩ := (rises_of_follow hwf hrest).returned given hgiven
      exact ⟨last, hlast, (hbelow.trans hbelow').trans hbelow''⟩
    | succ r =>
      obtain ⟨known', hknown', hbelow'⟩ := (hnoted.rises hwf).element id known hknown
      exact ih hrest hknown' (hbelow.trans hbelow') (by simpa using hr)

theorem below_of_adds_of_returns (hwf : h.WellFormed) {visits : List Visit} {t t' : Tracker}
    {id i r : Nat} {type : String} {v w : Visit} (hfollow : follow h visits t = .ok t') (hir : i < r)
    (hi : visits[i]? = some v) (hr : visits[r]? = some w) (hv : v.Adds h id type) (hw : w.Returns id) :
    ∃ returned, t'.returned = some returned ∧ h.Below type returned := by
  -- The visits before the addition are dropped; from it on the type is below what is known.
  induction visits generalizing t i r with
  | nil => simp at hi
  | cons first rest ih =>
    obtain ⟨next, hnoted, hrest⟩ := follow_cons_ok hfollow
    obtain ⟨r, rfl⟩ : ∃ k, r = k + 1 := ⟨r - 1, by omega⟩
    rw [List.getElem?_cons_succ] at hr
    cases i with
    | zero =>
      obtain rfl : first = v := by simpa using hi
      obtain ⟨known, hknown, hbelow⟩ := hnoted.below_of_adds hwf hv
      exact below_of_returns hwf hrest hknown hbelow hr hw
    | succ i => exact ih hrest (Nat.lt_of_succ_lt_succ hir) (by simpa using hi) hr

end Collections.Tracker

end Classmith
