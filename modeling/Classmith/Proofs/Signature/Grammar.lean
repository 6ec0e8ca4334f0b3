import Classmith.Signature.Parser

/-!
# The grammar of signatures

Which trees can be read. Reading a text gives a well-formed tree whose spelling is the text, and a
well-formed tree is read back from its spelling, so the two are inverse to each other.
-/
namespace Classmith.Signature

open Text

/-- A text that no character ends before its end: none of `<`, `.` and `;` is in it. -/
def IsName (name : String) : Prop := ∀ c ∈ name.toList, endsName c = false

mutual

def TypeSig.WellFormed : TypeSig → Prop
  | .base letter => isBase letter = true
  | .typeVar name => ';' ∉ name.toList
  | .array element => element.WellFormed
  | .object name arguments members => IsName name ∧ arguments.WellFormed ∧ members.WellFormed

def Arguments.WellFormed : Arguments → Prop
  | .absent => True
  | .given list => list.WellFormed

def ArgumentList.WellFormed : ArgumentList → Prop
  | .nil => True
  | .any rest => rest.WellFormed
  | .type bound type rest =>
    (bound = none ∨ bound = some '+' ∨ bound = some '-') ∧ type.WellFormed ∧ rest.WellFormed

def Members.WellFormed : Members → Prop
  | .nil => True
  | .cons name arguments rest => IsName name ∧ arguments.WellFormed ∧ rest.WellFormed

end

/-- A formal parameter by itself: only a type that is no primitive can be its class bound. -/
structure Formal.WellFormed (f : Formal) : Prop where
  name_colon : ':' ∉ f.name.toList
  name_close : f.name.toList.head? ≠ some '>'
  classBound : ∀ t ∈ f.classBound, t.WellFormed ∧ startsBound t.print = true
  interfaceBounds : ∀ t ∈ f.interfaceBounds, t.WellFormed

/-- What the next formal parameter must not look like for a parameter to end where it does. -/
def Formal.EndsBefore (f : Formal) (rest : List Formal) : Prop :=
  ∀ next ∈ rest.head?, next.name ≠ "" ∧
    (f.classBound = none → f.interfaceBounds = [] → startsBound next.name.toList = false)

def WellFormedFormals : List Formal → Prop
  | [] => True
  | f :: rest => f.WellFormed ∧ f.EndsBefore rest ∧ WellFormedFormals rest

def Item.WellFormed : Item → Prop
  | .mark c => isMark c = true
  | .type t => t.WellFormed

structure Tree.WellFormed (t : Tree) : Prop where
  formals : ∀ formals ∈ t.formals, WellFormedFormals formals
  items : ∀ item ∈ t.items, item.WellFormed

/-! ## Names -/

theorem name?_eq_some {s name rest : List Char} (h : name? s = some (name, rest)) :
    s = name ++ rest ∧ ∀ c ∈ name, endsName c = false := by
  induction s generalizing name with
  | nil => simp [name?] at h
  | cons c s ih =>
    simp only [name?] at h
    split at h
    · simp only [Option.some.injEq, Prod.mk.injEq] at h
      obtain ⟨rfl, rfl⟩ := h
      simp
    · rename_i hc
      simp only [Option.map_eq_some_iff, Prod.mk.injEq, Prod.exists] at h
      obtain ⟨n, a, hn, rfl, rfl⟩ := h
      obtain ⟨hs, hname⟩ := ih hn
      refine ⟨by simp [hs], ?_⟩
      intro d hd
      rcases List.mem_cons.mp hd with rfl | hd
      · simpa using hc
      · exact hname d hd

theorem name?_append {name : List Char} (hname : ∀ c ∈ name, endsName c = false) {c : Char}
    (hc : endsName c = true) (rest : List Char) :
    name? (name ++ c :: rest) = some (name, c :: rest) := by
  induction name with
  | nil => simp [name?, hc]
  | cons d name ih =>
    have hd : endsName d = false := hname d (by simp)
    have hrest := ih fun e he => hname e (by simp [he])
    simp [name?, hd, hrest]

theorem cutFirst?_append {mark : Char} {before : List Char} (h : mark ∉ before)
    (after : List Char) : cutFirst? mark (before ++ mark :: after) = some (before, after) := by
  induction before with
  | nil => simp [cutFirst?]
  | cons c before ih =>
    have hc : c ≠ mark := fun hc => h (by simp [hc])
    have hrest := ih fun hm => h (by simp [hm])
    simp [cutFirst?, hc, hrest]

/-! ## The reader in equations -/

/-- The type arguments that may follow a class name. -/
def arguments? (fuel : Nat) : List Char → Option (Arguments × List Char)
  | '<' :: s => (argumentList? fuel s).map fun (list, s) => (.given list, s)
  | s => some (.absent, s)

theorem arguments?_absent (fuel : Nat) {s : List Char} (h : ∀ rest, s ≠ '<' :: rest) :
    arguments? fuel s = some (.absent, s) := by
  unfold arguments?
  split
  · exact absurd rfl (h _)
  · rfl

theorem type?_object (fuel : Nat) (s : List Char) : type? (fuel + 1) ('L' :: s) =
    (name? s).bind fun (name, s) => (arguments? fuel s).bind fun (arguments, s) =>
      (members? fuel s).bind fun (members, s) =>
        match s with
        | ';' :: s => some (.object (String.ofList name) arguments members, s)
        | _ => none := by
  rw [type?]
  cases name? s with
  | none => rfl
  | some read =>
    obtain ⟨name, s⟩ := read
    simp only [Option.bind_eq_bind, Option.bind_some]
    split
    · rfl
    · rename_i h
      rw [arguments?_absent fuel h]
      rfl

theorem members?_cons (fuel : Nat) (s : List Char) : members? (fuel + 1) ('.' :: s) =
    (name? s).bind fun (name, s) => (arguments? fuel s).bind fun (arguments, s) =>
      (members? fuel s).map fun (rest, s) => (.cons (String.ofList name) arguments rest, s) := by
  rw [members?]
  cases name? s with
  | none => rfl
  | some read =>
    obtain ⟨name, s⟩ := read
    simp only [Option.bind_eq_bind, Option.bind_some, Option.map_eq_bind]
    split
    · simp only [arguments?, Option.map_eq_bind]
      rfl
    · rename_i h
      rw [arguments?_absent fuel h]
      rfl

/-- The mark of a bounded type argument, if there is one, and what follows it. -/
def bound? : List Char → Option Char × List Char
  | '+' :: s => (some '+', s)
  | '-' :: s => (some '-', s)
  | s => (none, s)

theorem bound?_spec (s : List Char) : s = (bound? s).1.toList ++ (bound? s).2 ∧
    ((bound? s).1 = none ∨ (bound? s).1 = some '+' ∨ (bound? s).1 = some '-') := by
  unfold bound?
  split <;> simp

theorem argumentList?_type (fuel : Nat) {s : List Char} (hclose : ∀ rest, s ≠ '>' :: rest)
    (hany : ∀ rest, s ≠ '*' :: rest) : argumentList? (fuel + 1) s =
    (type? fuel (bound? s).2).bind fun (type, after) =>
      (argumentList? fuel after).map fun (rest, after) =>
        (.type (bound? s).1 type rest, after) := by
  simp only [Option.map_eq_bind]
  unfold bound?
  split
  · rw [argumentList?.eq_4]
    rfl
  · rw [argumentList?.eq_5]
    rfl
  · rename_i hplus hminus
    rw [argumentList?.eq_6 _ _ hclose hany hplus hminus]
    rfl

/-! ## Reading is sound -/

/-- What a reader takes from the front of a text is a well-formed tree in its spelling. -/
def Sound {α : Type} (read? : List Char → Option (α × List Char)) (print : α → List Char)
    (wellFormed : α → Prop) : Prop :=
  ∀ s a rest, read? s = some (a, rest) → s = print a ++ rest ∧ wellFormed a

theorem sound_arguments? {fuel : Nat}
    (hlist : Sound (argumentList? fuel) (fun l => l.print ++ ['>']) ArgumentList.WellFormed) :
    Sound (arguments? fuel) Arguments.print Arguments.WellFormed := by
  intro s a rest h
  unfold arguments? at h
  split at h
  · simp only [Option.map_eq_some_iff, Prod.mk.injEq, Prod.exists] at h
    obtain ⟨list, after, hread, rfl, rfl⟩ := h
    obtain ⟨hs, hwell⟩ := hlist _ _ _ hread
    exact ⟨by simp [Arguments.print, hs], hwell⟩
  · simp only [Option.some.injEq, Prod.mk.injEq] at h
    obtain ⟨rfl, rfl⟩ := h
    exact ⟨rfl, trivial⟩

theorem sound_type?_succ {fuel : Nat} (htype : Sound (type? fuel) TypeSig.print TypeSig.WellFormed)
    (hlist : Sound (argumentList? fuel) (fun l => l.print ++ ['>']) ArgumentList.WellFormed)
    (hmembers : Sound (members? fuel) Members.print Members.WellFormed) :
    Sound (type? (fuel + 1)) TypeSig.print TypeSig.WellFormed := by
  intro s t rest h
  cases s with
  | nil => simp [type?] at h
  | cons c s =>
    by_cases hobject : c = 'L'
    · subst hobject
      rw [type?_object] at h
      simp only [Option.bind_eq_some_iff, Prod.exists] at h
      obtain ⟨name, s₁, hname, arguments, s₂, harguments, members, s₃, hread, hend⟩ := h
      obtain ⟨hs, hisName⟩ := name?_eq_some hname
      obtain ⟨hs₁, hargumentsWell⟩ := sound_arguments? hlist _ _ _ harguments
      obtain ⟨hs₂, hmembersWell⟩ := hmembers _ _ _ hread
      split at hend
      · simp only [Option.some.injEq, Prod.mk.injEq] at hend
        obtain ⟨rfl, rfl⟩ := hend
        refine ⟨by simp [TypeSig.print, hs, hs₁, hs₂], ?_, hargumentsWell, hmembersWell⟩
        simpa [IsName] using hisName
      · simp at hend
    by_cases hvar : c = 'T'
    · subst hvar
      simp only [type?, Option.map_eq_some_iff, Prod.mk.injEq, Prod.exists] at h
      obtain ⟨name, after, hcut, rfl, rfl⟩ := h
      obtain ⟨hs, hnot⟩ := cutFirst?_eq_some hcut
      exact ⟨by simp [TypeSig.print, hs], by simpa [TypeSig.WellFormed] using hnot⟩
    by_cases harray : c = '['
    · subst harray
      simp only [type?, Option.map_eq_some_iff, Prod.mk.injEq, Prod.exists] at h
      obtain ⟨element, after, hread, rfl, rfl⟩ := h
      obtain ⟨hs, hwell⟩ := htype _ _ _ hread
      exact ⟨by simp [TypeSig.print, hs], hwell⟩
    · rw [type?.eq_6 _ _ _ hobject hvar harray] at h
      split at h
      · rename_i hbase
        simp only [Option.some.injEq, Prod.mk.injEq] at h
        obtain ⟨rfl, rfl⟩ := h
        exact ⟨rfl, hbase⟩
      · simp at h

theorem sound_argumentList?_succ {fuel : Nat}
    (htype : Sound (type? fuel) TypeSig.print TypeSig.WellFormed)
    (hlist : Sound (argumentList? fuel) (fun l => l.print ++ ['>']) ArgumentList.WellFormed) :
    Sound (argumentList? (fuel + 1)) (fun l => l.print ++ ['>']) ArgumentList.WellFormed := by
  intro s l rest h
  by_cases hclose : ∃ after, s = '>' :: after
  · obtain ⟨after, rfl⟩ := hclose
    simp only [argumentList?, Option.some.injEq, Prod.mk.injEq] at h
    obtain ⟨rfl, rfl⟩ := h
    exact ⟨rfl, trivial⟩
  by_cases hany : ∃ after, s = '*' :: after
  · obtain ⟨after, rfl⟩ := hany
    simp only [argumentList?, Option.map_eq_some_iff, Prod.mk.injEq, Prod.exists] at h
    obtain ⟨list, after, hread, rfl, rfl⟩ := h
    obtain ⟨hs, hwell⟩ := hlist _ _ _ hread
    exact ⟨by simp [ArgumentList.print, hs], hwell⟩
  · rw [argumentList?_type fuel (not_exists.mp hclose) (not_exists.mp hany)] at h
    simp only [Option.bind_eq_some_iff, Option.map_eq_some_iff, Prod.mk.injEq, Prod.exists] at h
    obtain ⟨type, s₁, hread, list, after, hmore, rfl, rfl⟩ := h
    obtain ⟨hs, hbound⟩ := bound?_spec s
    obtain ⟨hs₁, htypeWell⟩ := htype _ _ _ hread
    obtain ⟨hs₂, hlistWell⟩ := hlist _ _ _ hmore
    refine ⟨?_, hbound, htypeWell, hlistWell⟩
    calc s = (bound? s).1.toList ++ (bound? s).2 := hs
      _ = (bound? s).1.toList ++ (type.print ++ (list.print ++ ['>'] ++ after)) := by
        rw [hs₁, hs₂]
      _ = _ := by simp [ArgumentList.print]

theorem sound_members?_succ {fuel : Nat}
    (hlist : Sound (argumentList? fuel) (fun l => l.print ++ ['>']) ArgumentList.WellFormed)
    (hmembers : Sound (members? fuel) Members.print Members.WellFormed) :
    Sound (members? (fuel + 1)) Members.print Members.WellFormed := by
  intro s m rest h
  by_cases hdot : ∃ after, s = '.' :: after
  · obtain ⟨s, rfl⟩ := hdot
    rw [members?_cons] at h
    simp only [Option.bind_eq_some_iff, Option.map_eq_some_iff, Prod.mk.injEq, Prod.exists] at h
    obtain ⟨name, s₁, hname, arguments, s₂, harguments, members, after, hread, rfl, rfl⟩ := h
    obtain ⟨hs, hisName⟩ := name?_eq_some hname
    obtain ⟨hs₁, hargumentsWell⟩ := sound_arguments? hlist _ _ _ harguments
    obtain ⟨hs₂, hmembersWell⟩ := hmembers _ _ _ hread
    refine ⟨by simp [Members.print, hs, hs₁, hs₂], ?_, hargumentsWell, hmembersWell⟩
    simpa [IsName] using hisName
  · rw [members?.eq_3 _ _ fun after hs => hdot ⟨after, hs⟩] at h
    simp only [Option.some.injEq, Prod.mk.injEq] at h
    obtain ⟨rfl, rfl⟩ := h
    exact ⟨rfl, trivial⟩

theorem sound_types (fuel : Nat) : Sound (type? fuel) TypeSig.print TypeSig.WellFormed ∧
    Sound (argumentList? fuel) (fun l => l.print ++ ['>']) ArgumentList.WellFormed ∧
    Sound (members? fuel) Members.print Members.WellFormed := by
  induction fuel with
  | zero => refine ⟨?_, ?_, ?_⟩ <;> intro s a rest h <;> simp [type?, argumentList?, members?] at h
  | succ fuel ih =>
    obtain ⟨htype, hlist, hmembers⟩ := ih
    exact ⟨sound_type?_succ htype hlist hmembers, sound_argumentList?_succ htype hlist,
      sound_members?_succ hlist hmembers⟩

theorem sound_type? (fuel : Nat) : Sound (type? fuel) TypeSig.print TypeSig.WellFormed :=
  (sound_types fuel).1

theorem bounds?_eq_some {fuel : Nat} {s rest : List Char} {bounds : List TypeSig}
    (h : bounds? fuel s = some (bounds, rest)) :
    s = bounds.flatMap (fun t => ':' :: t.print) ++ rest ∧ (∀ t ∈ bounds, t.WellFormed) ∧
      ∀ after, rest ≠ ':' :: after := by
  induction fuel generalizing s bounds with
  | zero => simp [bounds?] at h
  | succ fuel ih =>
    by_cases hcolon : ∃ after, s = ':' :: after
    · obtain ⟨s, rfl⟩ := hcolon
      simp only [bounds?, Option.bind_eq_bind, Option.pure_def, Option.bind_eq_some_iff,
        Option.some.injEq, Prod.mk.injEq, Prod.exists] at h
      obtain ⟨type, s₁, hread, more, after, hmore, rfl, rfl⟩ := h
      obtain ⟨hs, htype⟩ := sound_type? fuel _ _ _ hread
      obtain ⟨hs₁, hmoreWell, hrest⟩ := ih hmore
      refine ⟨by simp [hs, hs₁], ?_, hrest⟩
      intro t ht
      rcases List.mem_cons.mp ht with rfl | ht
      · exact htype
      · exact hmoreWell t ht
    · rw [bounds?.eq_3 _ _ fun after hs => hcolon ⟨after, hs⟩] at h
      simp only [Option.some.injEq, Prod.mk.injEq] at h
      obtain ⟨rfl, rfl⟩ := h
      exact ⟨rfl, by simp, not_exists.mp hcolon⟩

theorem TypeSig.print_ne_nil (t : TypeSig) : t.print ≠ [] := by
  cases t <;> simp [TypeSig.print]

theorem startsBound_cons (c : Char) (s : List Char) :
    startsBound (c :: s) = decide (c = 'L' ∨ c = 'T' ∨ c = '[') := by
  unfold startsBound
  split <;> simp_all

theorem startsBound_append {s : List Char} (hs : s ≠ []) (rest : List Char) :
    startsBound (s ++ rest) = startsBound s := by
  cases s with
  | nil => exact absurd rfl hs
  | cons c s => simp only [List.cons_append, startsBound_cons]

/-- The class bound of a formal parameter, if there is one. -/
def classBound? (fuel : Nat) (s : List Char) : Option (Option TypeSig × List Char) :=
  if startsBound s then (type? fuel s).map fun (type, s) => (some type, s) else some (none, s)

theorem formals?_cons (fuel : Nat) {s : List Char} (hclose : ∀ rest, s ≠ '>' :: rest) :
    formals? (fuel + 1) s =
      (cutFirst? ':' s).bind fun (name, s) => (classBound? fuel s).bind fun (classBound, s) =>
        (bounds? fuel s).bind fun (interfaceBounds, s) => (formals? fuel s).map fun (rest, s) =>
          (⟨String.ofList name, classBound, interfaceBounds⟩ :: rest, s) := by
  rw [formals?.eq_3 _ _ hclose]
  cases cutFirst? ':' s with
  | none => rfl
  | some read =>
    obtain ⟨name, s⟩ := read
    simp only [Option.bind_eq_bind, Option.bind_some, Option.map_eq_bind, classBound?]
    split <;> rfl

theorem classBound?_eq_some {fuel : Nat} {s rest : List Char} {bound : Option TypeSig}
    (h : classBound? fuel s = some (bound, rest)) :
    s = (bound.map TypeSig.print).getD [] ++ rest ∧
      (∀ t ∈ bound, t.WellFormed ∧ startsBound t.print = true) ∧
      (bound = none → startsBound rest = false) := by
  unfold classBound? at h
  split at h
  · rename_i hstarts
    simp only [Option.map_eq_some_iff, Prod.mk.injEq, Prod.exists] at h
    obtain ⟨type, after, hread, rfl, rfl⟩ := h
    obtain ⟨hs, htype⟩ := sound_type? fuel _ _ _ hread
    refine ⟨hs, ?_, by simp⟩
    intro t ht
    obtain rfl : type = t := by simpa using ht
    refine ⟨htype, ?_⟩
    -- the bound starts as the text does, since no type has an empty spelling
    rwa [hs, startsBound_append type.print_ne_nil] at hstarts
  · rename_i hstarts
    simp only [Option.some.injEq, Prod.mk.injEq] at h
    obtain ⟨rfl, rfl⟩ := h
    exact ⟨rfl, by simp, fun _ => by simpa using hstarts⟩

/-- A formal parameter with its name, read before others, ends before them. -/
theorem endsBefore_of_read {f : Formal} {rest : List Formal} {s after : List Char}
    (hs : s = rest.flatMap Formal.print ++ '>' :: after)
    (hcolon : ∀ more, s ≠ ':' :: more)
    (hbare : f.classBound = none → f.interfaceBounds = [] → startsBound s = false) :
    f.EndsBefore rest := by
  intro next hnext
  obtain ⟨more, rfl⟩ : ∃ more, rest = next :: more := by
    cases rest with
    | nil => simp at hnext
    | cons g more => exact ⟨more, by simp_all⟩
  simp only [List.flatMap_cons, Formal.print, List.append_assoc, List.cons_append] at hs
  have hname : next.name.toList ≠ [] := by
    intro hempty
    rw [hempty, List.nil_append] at hs
    exact hcolon _ hs
  refine ⟨fun hempty => hname (by simp [hempty]), ?_⟩
  intro hclass hinterfaces
  have hstarts := hbare hclass hinterfaces
  rwa [hs, startsBound_append hname] at hstarts

theorem formals?_eq_some {fuel : Nat} {s rest : List Char} {formals : List Formal}
    (h : formals? fuel s = some (formals, rest)) :
    s = formals.flatMap Formal.print ++ '>' :: rest ∧ WellFormedFormals formals := by
  induction fuel generalizing s formals with
  | zero => simp [formals?] at h
  | succ fuel ih =>
    by_cases hclose : ∃ after, s = '>' :: after
    · obtain ⟨after, rfl⟩ := hclose
      simp only [formals?, Option.some.injEq, Prod.mk.injEq] at h
      obtain ⟨rfl, rfl⟩ := h
      exact ⟨rfl, trivial⟩
    · rw [formals?_cons fuel (not_exists.mp hclose)] at h
      simp only [Option.bind_eq_some_iff, Option.map_eq_some_iff, Prod.mk.injEq, Prod.exists] at h
      obtain ⟨name, s₁, hcut, classBound, s₂, hclass, interfaceBounds, s₃, hinterfaces, more, after,
        hmore, rfl, rfl⟩ := h
      obtain ⟨hs, hcolon⟩ := cutFirst?_eq_some hcut
      obtain ⟨hs₁, hclassWell, hnone⟩ := classBound?_eq_some hclass
      obtain ⟨hs₂, hinterfacesWell, hnext⟩ := bounds?_eq_some hinterfaces
      obtain ⟨hs₃, hmoreWell⟩ := ih hmore
      refine ⟨by simp [Formal.print, hs, hs₁, hs₂, hs₃], ⟨?_, ?_, hclassWell, hinterfacesWell⟩, ?_,
        hmoreWell⟩
      · simpa using hcolon
      · intro hhead
        cases name with
        | nil => simp at hhead
        | cons c name =>
          obtain rfl : c = '>' := by simpa using hhead
          exact hclose ⟨_, hs⟩
      · refine endsBefore_of_read hs₃ hnext ?_
        intro hclassNone hinterfacesNil
        simp only at hclassNone hinterfacesNil
        have hstarts := hnone hclassNone
        rwa [hs₂, hinterfacesNil, List.flatMap_nil, List.nil_append] at hstarts

theorem items?_eq_some {fuel : Nat} {s : List Char} {items : List Item}
    (h : items? fuel s = some items) :
    s = items.flatMap Item.print ∧ ∀ item ∈ items, item.WellFormed := by
  induction fuel generalizing s items with
  | zero => simp [items?] at h
  | succ fuel ih =>
    cases s with
    | nil =>
      obtain rfl : items = [] := by simpa [items?] using h.symm
      simp
    | cons c s =>
      simp only [items?] at h
      split at h
      · rename_i hmark
        obtain ⟨more, hmore, rfl⟩ := Option.map_eq_some_iff.mp h
        obtain ⟨hs, hwell⟩ := ih hmore
        exact ⟨by simp [Item.print, ← hs], by simpa [Item.WellFormed, hmark] using hwell⟩
      · simp only [Option.bind_eq_bind, Option.pure_def, Option.bind_eq_some_iff,
          Option.some.injEq, Prod.exists] at h
        obtain ⟨type, after, hread, more, hmore, rfl⟩ := h
        obtain ⟨hs, htype⟩ := sound_type? fuel _ _ _ hread
        obtain ⟨hafter, hwell⟩ := ih hmore
        exact ⟨by rw [hs, hafter]; simp [Item.print],
          by simpa [Item.WellFormed, htype] using hwell⟩

/-- A tree that is read spells the text it was read from. -/
theorem parse?_eq_some {s : List Char} {t : Tree} (h : parse? s = some t) :
    t.print = s ∧ t.WellFormed := by
  unfold parse? at h
  split at h
  · simp only [Option.bind_eq_bind, Option.pure_def, Option.bind_eq_some_iff, Option.some.injEq,
      Prod.exists] at h
    obtain ⟨formals, rest, hformals, items, hitems, rfl⟩ := h
    obtain ⟨hs, hformalsWell⟩ := formals?_eq_some hformals
    obtain ⟨hrest, hitemsWell⟩ := items?_eq_some hitems
    exact ⟨by simp [Tree.print, hs, hrest], by simpa using hformalsWell, hitemsWell⟩
  · obtain ⟨items, hitems, rfl⟩ := Option.map_eq_some_iff.mp h
    obtain ⟨hs, hitemsWell⟩ := items?_eq_some hitems
    exact ⟨by simp [Tree.print, ← hs], by simp, hitemsWell⟩

/-! ## Reading is complete -/

theorem name?_print {name : String} (hname : IsName name) (arguments : Arguments)
    (members : Members) (rest : List Char) :
    name? (name.toList ++ (arguments.print ++ (members.print ++ ';' :: rest))) =
      some (name.toList, arguments.print ++ (members.print ++ ';' :: rest)) := by
  cases arguments with
  | given list => exact name?_append hname rfl _
  | absent =>
    cases members with
    | nil => exact name?_append hname rfl _
    | cons inner arguments more => exact name?_append hname rfl _

theorem TypeSig.length_print_pos (t : TypeSig) : 0 < t.print.length :=
  List.length_pos_iff.mpr t.print_ne_nil

/-- A type starts with none of the marks of type arguments. -/
theorem TypeSig.WellFormed.head_ne {t : TypeSig} (h : t.WellFormed) {c : Char} {rest s : List Char}
    (hs : t.print ++ rest = c :: s) : c ≠ '>' ∧ c ≠ '*' ∧ c ≠ '+' ∧ c ≠ '-' := by
  cases t with
  | base letter =>
    obtain ⟨rfl, -⟩ : letter = c ∧ rest = s := by simpa [TypeSig.print] using hs
    have hbase : isBase letter = true := h
    refine ⟨?_, ?_, ?_, ?_⟩ <;> rintro rfl <;> exact absurd hbase (by decide)
  | typeVar name | array element | object name arguments members =>
    simp only [TypeSig.print, List.cons_append, List.cons.injEq] at hs
    simp [← hs.1]

theorem bound?_print {bound : Option Char} (hbound : bound = none ∨ bound = some '+' ∨ bound = some '-')
    {t : TypeSig} (ht : t.WellFormed) (rest : List Char) :
    bound? (bound.toList ++ (t.print ++ rest)) = (bound, t.print ++ rest) := by
  rcases hbound with rfl | rfl | rfl
  · simp only [Option.toList_none, List.nil_append]
    unfold bound?
    split
    · rename_i hs
      exact absurd rfl (ht.head_ne hs).2.2.1
    · rename_i hs
      exact absurd rfl (ht.head_ne hs).2.2.2
    · rfl
  · rfl
  · rfl

theorem argumentList?_print_type {bound : Option Char}
    (hbound : bound = none ∨ bound = some '+' ∨ bound = some '-') {t : TypeSig} (ht : t.WellFormed)
    (fuel : Nat) (rest : List Char) :
    argumentList? (fuel + 1) (bound.toList ++ (t.print ++ rest)) =
      (type? fuel (t.print ++ rest)).bind fun (type, after) =>
        (argumentList? fuel after).map fun (more, after) => (.type bound type more, after) := by
  have hhead : ∀ c after, bound.toList ++ (t.print ++ rest) = c :: after → c ≠ '>' ∧ c ≠ '*' := by
    intro c after hs
    rcases hbound with rfl | rfl | rfl
    · exact ⟨(ht.head_ne hs).1, (ht.head_ne hs).2.1⟩
    · simp at hs
      simp [← hs.1]
    · simp at hs
      simp [← hs.1]
  rw [argumentList?_type fuel (fun after hs => (hhead _ _ hs).1 rfl)
    (fun after hs => (hhead _ _ hs).2 rfl), bound?_print hbound ht]

mutual

theorem type?_print (t : TypeSig) (h : t.WellFormed) (rest : List Char) (fuel : Nat)
    (hfuel : t.print.length < fuel) : type? fuel (t.print ++ rest) = some (t, rest) := by
  match t, fuel, hfuel with
  | .base letter, fuel + 1, _ =>
    have hbase : isBase letter = true := h
    have hother : letter ≠ 'L' ∧ letter ≠ 'T' ∧ letter ≠ '[' := by
      refine ⟨?_, ?_, ?_⟩ <;> rintro rfl <;> exact absurd hbase (by decide)
    simp [TypeSig.print, type?.eq_6 _ _ _ hother.1 hother.2.1 hother.2.2, hbase]
  | .typeVar name, fuel + 1, _ =>
    simp [TypeSig.print, type?, cutFirst?_append h]
  | .array element, fuel + 1, hfuel =>
    simp only [TypeSig.print, List.length_cons] at hfuel
    simp [TypeSig.print, type?, type?_print element h rest fuel (by omega)]
  | .object name arguments members, fuel + 1, hfuel =>
    obtain ⟨hname, harguments, hmembers⟩ := h
    simp only [TypeSig.print, List.length_cons, List.length_append] at hfuel
    have hafter : ∀ more, members.print ++ ';' :: rest ≠ '<' :: more := by
      cases members <;> simp [Members.print]
    simp only [TypeSig.print, List.cons_append, List.append_assoc, List.nil_append]
    rw [type?_object, name?_print hname]
    simp only [Option.bind_some]
    rw [arguments?_print arguments harguments _ hafter fuel (by omega)]
    simp only [Option.bind_some]
    rw [members?_print members hmembers rest fuel (by omega)]
    simp

theorem arguments?_print (a : Arguments) (h : a.WellFormed) (rest : List Char)
    (hrest : ∀ more, rest ≠ '<' :: more) (fuel : Nat) (hfuel : a.print.length < fuel + 1) :
    arguments? fuel (a.print ++ rest) = some (a, rest) := by
  match a with
  | .absent => exact arguments?_absent fuel hrest
  | .given list =>
    simp only [Arguments.print, List.length_cons, List.length_append] at hfuel
    simp only [Arguments.print, List.cons_append, List.append_assoc, arguments?, List.nil_append]
    rw [argumentList?_print list h rest fuel (by omega)]
    rfl

theorem argumentList?_print (l : ArgumentList) (h : l.WellFormed) (rest : List Char) (fuel : Nat)
    (hfuel : l.print.length + 1 < fuel) :
    argumentList? fuel (l.print ++ '>' :: rest) = some (l, rest) := by
  match l, fuel, hfuel with
  | .nil, fuel + 1, _ => simp [ArgumentList.print, argumentList?]
  | .any more, fuel + 1, hfuel =>
    simp only [ArgumentList.print, List.length_cons] at hfuel
    simp [ArgumentList.print, argumentList?, argumentList?_print more h rest fuel (by omega)]
  | .type bound type more, fuel + 1, hfuel =>
    obtain ⟨hbound, htype, hmore⟩ := h
    have hpos := type.length_print_pos
    simp only [ArgumentList.print, List.length_append] at hfuel
    simp only [ArgumentList.print, List.append_assoc]
    rw [argumentList?_print_type hbound htype, type?_print type htype _ fuel (by omega)]
    simp only [Option.bind_some]
    rw [argumentList?_print more hmore rest fuel (by omega)]
    rfl

theorem members?_print (m : Members) (h : m.WellFormed) (rest : List Char) (fuel : Nat)
    (hfuel : m.print.length < fuel) :
    members? fuel (m.print ++ ';' :: rest) = some (m, ';' :: rest) := by
  match m, fuel, hfuel with
  | .nil, fuel + 1, _ => simp [Members.print, members?]
  | .cons name arguments more, fuel + 1, hfuel =>
    obtain ⟨hname, harguments, hmore⟩ := h
    simp only [Members.print, List.length_cons, List.length_append] at hfuel
    have hafter : ∀ s, more.print ++ ';' :: rest ≠ '<' :: s := by
      cases more <;> simp [Members.print]
    simp only [Members.print, List.cons_append, List.append_assoc]
    rw [members?_cons, name?_print hname]
    simp only [Option.bind_some]
    rw [arguments?_print arguments harguments _ hafter fuel (by omega)]
    simp only [Option.bind_some]
    rw [members?_print more hmore rest fuel (by omega)]
    simp

end

theorem bounds?_print (bounds : List TypeSig) (h : ∀ t ∈ bounds, t.WellFormed) (rest : List Char)
    (hrest : ∀ more, rest ≠ ':' :: more) (fuel : Nat)
    (hfuel : (bounds.flatMap fun t => ':' :: t.print).length < fuel) :
    bounds? fuel (bounds.flatMap (fun t => ':' :: t.print) ++ rest) = some (bounds, rest) := by
  induction bounds generalizing fuel with
  | nil =>
    obtain ⟨fuel, rfl⟩ : ∃ n, fuel = n + 1 := ⟨fuel - 1, by simp at hfuel; omega⟩
    exact bounds?.eq_3 _ _ hrest
  | cons t bounds ih =>
    obtain ⟨fuel, rfl⟩ : ∃ n, fuel = n + 1 := ⟨fuel - 1, by omega⟩
    simp only [List.flatMap_cons, List.length_append, List.length_cons] at hfuel
    simp only [List.flatMap_cons, List.cons_append, List.append_assoc, bounds?]
    rw [type?_print t (h t (by simp)) _ fuel (by omega)]
    simp only [Option.bind_eq_bind, Option.bind_some]
    rw [ih (fun t ht => h t (by simp [ht])) fuel (by omega)]
    rfl

theorem classBound?_print {bound : Option TypeSig}
    (h : ∀ t ∈ bound, t.WellFormed ∧ startsBound t.print = true) (rest : List Char)
    (hrest : bound = none → startsBound rest = false) (fuel : Nat)
    (hfuel : ((bound.map TypeSig.print).getD []).length < fuel) :
    classBound? fuel ((bound.map TypeSig.print).getD [] ++ rest) = some (bound, rest) := by
  cases bound with
  | none => simp [classBound?, hrest rfl]
  | some t =>
    obtain ⟨ht, hstarts⟩ := h t rfl
    simp only [Option.map_some, Option.getD_some] at hfuel ⊢
    simp [classBound?, startsBound_append t.print_ne_nil, hstarts, type?_print t ht rest fuel hfuel]

/-- After its bounds a formal parameter meets no text that it would take as a further bound. -/
theorem Formal.EndsBefore.stops {f : Formal} {more : List Formal} (h : f.EndsBefore more)
    (hmore : WellFormedFormals more) (rest : List Char) :
    (∀ s, more.flatMap Formal.print ++ '>' :: rest ≠ ':' :: s) ∧
      (f.classBound = none → f.interfaceBounds = [] →
        startsBound (more.flatMap Formal.print ++ '>' :: rest) = false) := by
  cases more with
  | nil => exact ⟨by simp, fun _ _ => rfl⟩
  | cons next more =>
    obtain ⟨hname, hbare⟩ := h next rfl
    have hne : next.name.toList ≠ [] := fun hempty => hname (String.toList_injective hempty)
    simp only [List.flatMap_cons, Formal.print, List.append_assoc, List.cons_append]
    refine ⟨?_, fun hclass hinterfaces => ?_⟩
    · intro s hs
      cases hlist : next.name.toList with
      | nil => exact hne hlist
      | cons c name =>
        have hcolon := hmore.1.name_colon
        rw [hlist, List.cons_append, List.cons.injEq] at hs
        exact hcolon (by simp [hlist, hs.1])
    · rw [startsBound_append hne]
      exact hbare hclass hinterfaces

theorem Formal.WellFormed.ne_close {f : Formal} (h : f.WellFormed) (s : List Char) :
    ∀ after, f.name.toList ++ ':' :: s ≠ '>' :: after := by
  intro after hs
  have hclose := h.name_close
  cases hname : f.name.toList with
  | nil => simp [hname] at hs
  | cons c name =>
    rw [hname, List.cons_append, List.cons.injEq] at hs
    exact hclose (by simp [hname, hs.1])

theorem formals?_print (formals : List Formal) (h : WellFormedFormals formals) (rest : List Char)
    (fuel : Nat) (hfuel : (formals.flatMap Formal.print).length + 1 < fuel) :
    formals? fuel (formals.flatMap Formal.print ++ '>' :: rest) = some (formals, rest) := by
  induction formals generalizing fuel with
  | nil =>
    obtain ⟨fuel, rfl⟩ : ∃ n, fuel = n + 1 := ⟨fuel - 1, by omega⟩
    simp [formals?]
  | cons f more ih =>
    obtain ⟨hf, hends, hmore⟩ := h
    obtain ⟨hcolon, hbare⟩ := hends.stops hmore rest
    obtain ⟨fuel, rfl⟩ : ∃ n, fuel = n + 1 := ⟨fuel - 1, by omega⟩
    have hclass : f.classBound = none →
        startsBound (f.interfaceBounds.flatMap (fun t => ':' :: t.print) ++
          (more.flatMap Formal.print ++ '>' :: rest)) = false := by
      intro hnone
      cases hinterfaces : f.interfaceBounds with
      | nil => exact hbare hnone hinterfaces
      | cons t bounds => rfl
    simp only [List.flatMap_cons, Formal.print, List.length_append, List.length_cons] at hfuel
    simp only [List.flatMap_cons, Formal.print, List.append_assoc, List.cons_append]
    rw [formals?_cons fuel (hf.ne_close _), cutFirst?_append hf.name_colon]
    simp only [Option.bind_some]
    rw [classBound?_print hf.classBound _ hclass fuel (by omega)]
    simp only [Option.bind_some]
    rw [bounds?_print _ hf.interfaceBounds _ hcolon fuel (by omega)]
    simp only [Option.bind_some]
    rw [ih hmore fuel (by omega)]
    simp

/-- A type starts with none of the marks between types. -/
theorem TypeSig.WellFormed.not_mark {t : TypeSig} (h : t.WellFormed) {c : Char}
    {s rest : List Char} (hs : t.print ++ rest = c :: s) : isMark c = false ∧ c ≠ '<' := by
  cases t with
  | base letter =>
    obtain ⟨rfl, -⟩ : letter = c ∧ rest = s := by simpa [TypeSig.print] using hs
    have hbase : isBase letter = true := h
    refine ⟨?_, by rintro rfl; exact absurd hbase (by decide)⟩
    simp only [isBase, Bool.or_eq_true, decide_eq_true_eq] at hbase
    rcases hbase with (((((((rfl | rfl) | rfl) | rfl) | rfl) | rfl) | rfl) | rfl) | rfl <;> rfl
  | typeVar name | array element | object name arguments members =>
    simp only [TypeSig.print, List.cons_append, List.cons.injEq] at hs
    rw [← hs.1]
    decide

theorem items?_print (items : List Item) (h : ∀ item ∈ items, item.WellFormed) (fuel : Nat)
    (hfuel : (items.flatMap Item.print).length + 1 < fuel) :
    items? fuel (items.flatMap Item.print) = some items := by
  induction items generalizing fuel with
  | nil =>
    obtain ⟨fuel, rfl⟩ : ∃ n, fuel = n + 1 := ⟨fuel - 1, by omega⟩
    simp [items?]
  | cons item more ih =>
    obtain ⟨fuel, rfl⟩ : ∃ n, fuel = n + 1 := ⟨fuel - 1, by omega⟩
    have hitem := h item (by simp)
    have hmore : ∀ item ∈ more, item.WellFormed := fun item hmem => h item (by simp [hmem])
    cases item with
    | mark c =>
      have hmark : isMark c = true := hitem
      simp only [List.flatMap_cons, Item.print, List.length_append, List.length_cons] at hfuel
      simp [Item.print, items?, hmark, ih hmore fuel (by omega)]
    | type t =>
      have hpos := t.length_print_pos
      simp only [List.flatMap_cons, Item.print, List.length_append] at hfuel
      have hread := type?_print t hitem (more.flatMap Item.print) fuel (by omega)
      cases hs : t.print ++ more.flatMap Item.print with
      | nil => simp [t.print_ne_nil] at hs
      | cons c s =>
        have hmark := (TypeSig.WellFormed.not_mark hitem hs).1
        rw [hs] at hread
        simp [Item.print, hs, items?, hmark, hread, ih hmore fuel (by omega)]

/-- Items are not taken for formal parameters. -/
theorem items_ne_open {items : List Item} (h : ∀ item ∈ items, item.WellFormed)
    (rest : List Char) : items.flatMap Item.print ≠ '<' :: rest := by
  intro hs
  cases items with
  | nil => simp at hs
  | cons item more =>
    have hitem := h item (by simp)
    rw [List.flatMap_cons] at hs
    cases item with
    | mark c =>
      obtain rfl : c = '<' := by simp [Item.print] at hs; exact hs.1
      exact absurd (show isMark '<' = true from hitem) (by decide)
    | type t => exact (TypeSig.WellFormed.not_mark hitem hs).2 rfl

/-- A well-formed tree is read back from its spelling. -/
theorem parse?_print {t : Tree} (h : t.WellFormed) : parse? t.print = some t := by
  obtain ⟨formals, items⟩ := t
  have hitems := h.items
  cases formals with
  | some formals =>
    have hformals := h.formals formals rfl
    simp only [Tree.print, List.cons_append, List.append_assoc, List.nil_append, parse?]
    rw [formals?_print formals hformals _ _ (by simp; omega)]
    simp only [Option.bind_eq_bind, Option.bind_some]
    rw [items?_print items hitems _ (by simp; omega)]
    rfl
  | none =>
    simp only [Tree.print, List.nil_append]
    have hread := items?_print items hitems ((items.flatMap Item.print).length + 2) (by omega)
    unfold parse?
    split
    · rename_i rest hs
      exact absurd hs (items_ne_open hitems rest)
    · rw [hread]
      rfl

end Classmith.Signature
