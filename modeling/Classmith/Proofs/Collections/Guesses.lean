import Classmith.Proofs.Collections.Trackers
import Classmith.Proofs.Tables
import Mathlib.Data.List.Nodup

/-!
# Guesses

Nothing that is remembered shows in the guesses: they are the types that the walks of the methods lead to,
without those that are the root. Every type that was added to a collection before the method returned it can
be assigned to the guess.
-/
namespace Classmith

open Simulation (State Visit)

namespace Hierarchy

variable {h : Hierarchy} {α β : Type}

theorem answers_filterAuxM {p : α → Query Bool} {q : α → Bool} (hp : ∀ a, h.Answers (p a) (.ok (q a)))
    (l kept : List α) : h.Answers (l.filterAuxM p kept) (.ok ((l.filter q).reverse ++ kept)) := by
  induction l generalizing kept with
  | nil => exact answers_pure kept
  | cons a rest ih =>
    have hrest : ((a :: rest).filter q).reverse ++ kept =
        (rest.filter q).reverse ++ bif q a then a :: kept else kept := by
      cases hq : q a <;> simp [hq]
    rw [hrest]
    exact (hp a).bind_ok (ih _)

theorem answers_filterM {p : α → Query Bool} {q : α → Bool} (hp : ∀ a, h.Answers (p a) (.ok (q a)))
    (l : List α) : h.Answers (l.filterM p) (.ok (l.filter q)) := by
  have hreverse : l.filter q = ((l.filter q).reverse ++ []).reverse := by simp
  rw [hreverse]
  exact (answers_filterAuxM hp l []).bind_ok (answers_pure _)

end Hierarchy

namespace Collections

variable {h : Hierarchy}

/-- Whether a method returns a collection, by the class its descriptor names. -/
def returns (h : Hierarchy) (m : Method) : Bool :=
  ((Descriptor.returnedClass? m.descriptor).bind fun name =>
    (Query.answer (Tracker.isCollection h name)).toOption).getD false

theorem answers_returnsCollection (m : Method) :
    h.Answers (returnsCollection h m) (.ok (returns h m)) := by
  rw [returnsCollection, returns]
  cases Descriptor.returnedClass? m.descriptor with
  | none => exact Hierarchy.answers_pure false
  | some name =>
    exact (Hierarchy.answers_attempt (Tracker.steady_isCollection name)).bind_ok (Hierarchy.answers_pure _)

/-- What a method is and does for which the type of elements is found. -/
structure Finds (h : Hierarchy) (c : Class) (m : Method) (element : String) : Prop where
  isStatic : m.isStatic = true
  signature : m.signature = none
  returns : returns h m = true
  outcome : ∃ outcome, (Simulation.walk c m).outcome = .ok outcome
  followed : ∃ t, Tracker.follow h (Simulation.walk c m).visits .start = .ok t ∧ t.returned = some element

/-- The type of elements that is found for a method, if one is. -/
def find? (h : Hierarchy) (c : Class) (m : Method) : Option String :=
  if m.isStatic = true ∧ m.signature = none ∧ returns h m = true ∧
      (Simulation.walk c m).outcome.isOk = true then
    (Tracker.follow h (Simulation.walk c m).visits .start).toOption.bind Tracker.returned
  else none

theorem find?_eq_some_iff {c : Class} {m : Method} {element : String} :
    find? h c m = some element ↔ Finds h c m element := by
  rw [find?, Option.ite_none_right_eq_some, Option.bind_eq_some_iff]
  constructor
  · rintro ⟨⟨hstatic, hsignature, hreturns, houtcome⟩, t, hfollow, hreturned⟩
    refine ⟨hstatic, hsignature, hreturns, ?_, t, eq_ok_of_toOption hfollow, hreturned⟩
    cases houtcome' : (Simulation.walk c m).outcome with
    | error e => simp [houtcome', Except.isOk, Except.toBool] at houtcome
    | ok outcome => exact ⟨outcome, rfl⟩
  · rintro ⟨hstatic, hsignature, hreturns, ⟨outcome, houtcome⟩, t, hfollow, hreturned⟩
    refine ⟨⟨hstatic, hsignature, hreturns, ?_⟩, t, ?_, hreturned⟩
    · rw [houtcome]
      rfl
    · rw [hfollow]
      rfl

theorem answers_elementType (c : Class) (m : Method) :
    h.Answers (elementType h c m) (.ok (find? h c m)) := by
  rw [elementType, find?]
  by_cases hplain : m.isStatic = true ∧ m.signature = none
  · obtain ⟨hstatic, hsignature⟩ := hplain
    rw [if_neg (by simp [hstatic, hsignature])]
    refine (answers_returnsCollection m).bind_ok ?_
    cases hreturns : returns h m with
    | false =>
      rw [Bool.not_false, if_pos rfl, if_neg fun hall => Bool.false_ne_true hall.2.2.1]
      exact Hierarchy.answers_pure none
    | true =>
      refine (Hierarchy.answers_attempt (Tracker.answers_follow _ .start)).bind_ok ?_
      cases houtcome : (Simulation.walk c m).outcome with
      | error e =>
        rw [if_neg (by simp [Except.isOk, Except.toBool])]
        exact Hierarchy.answers_pure none
      | ok outcome =>
        rw [if_pos ⟨hstatic, hsignature, rfl, rfl⟩]
        exact Hierarchy.answers_pure _
  · rw [if_pos, if_neg fun hall => hplain ⟨hall.1, hall.2.1⟩]
    · exact Hierarchy.answers_pure none
    · rcases Classical.not_and_iff_not_or_not.mp hplain with hstatic | hsignature
      · simp [hstatic]
      · simp [Option.isSome_iff_ne_none.mpr hsignature]

/-- The types that are found for the methods of a class. -/
def found (h : Hierarchy) (c : Class) (methods : List Method) : List MemberTable.Entry :=
  methods.filterMap fun m => (find? h c m).map fun element => ⟨c.name, m.descriptor, m.name, element⟩

theorem answers_guessMethods (c : Class) (methods : List Method) (table : MemberTable) :
    h.Answers (guessMethods h c table methods) (.ok ((found h c methods).foldl MemberTable.put table)) := by
  induction methods generalizing table with
  | nil => exact Hierarchy.answers_pure table
  | cons m rest ih =>
    rw [guessMethods]
    refine (answers_elementType c m).bind_ok ?_
    cases hfind : find? h c m with
    | none =>
      have hfound : found h c (m :: rest) = found h c rest := by simp [found, hfind]
      rw [hfound]
      exact ih table
    | some element =>
      have hfound : found h c (m :: rest) = ⟨c.name, m.descriptor, m.name, element⟩ :: found h c rest := by
        simp [found, hfind]
      rw [hfound]
      exact ih _

theorem answers_guessClasses (classes : List Class) (table : MemberTable) :
    h.Answers (guessClasses h table classes)
      (.ok ((classes.flatMap fun c => found h c c.methods).foldl MemberTable.put table)) := by
  induction classes generalizing table with
  | nil => exact Hierarchy.answers_pure table
  | cons c rest ih =>
    rw [guessClasses, List.flatMap_cons, List.foldl_append]
    exact (answers_guessMethods c c.methods table).bind_ok (ih _)

/-- The type is known and has a superclass, so it is not the root. -/
def tells (h : Hierarchy) (element : String) : Bool :=
  (h.lookup? element).any fun info => info.superName.isSome

theorem answers_informative (element : String) :
    h.Answers (informative h element) (.ok (tells h element)) := by
  refine (Hierarchy.answers_attempt (Hierarchy.answers_resolve element)).bind_ok ?_
  rw [tells, Plain.resolve]
  cases h.lookup? element <;> exact Hierarchy.answers_pure _

/-- All types that are found, by method. -/
def findings (h : Hierarchy) : MemberTable :=
  (h.pool.classes.flatMap fun c => found h c c.methods).foldl MemberTable.put MemberTable.empty

theorem answers_guess (h : Hierarchy) : h.Answers (guess h)
    (.ok (((findings h).toList.filter fun e => tells h e.new).map fun e =>
      ⟨e.owner, e.name, e.descriptor, e.new⟩)) := by
  have hkept := Hierarchy.answers_filterM (h := h)
    (fun e : MemberTable.Entry => answers_informative e.new) (findings h).toList
  rw [guess]
  refine (answers_guessClasses h.pool.classes MemberTable.empty).bind_ok ?_
  refine hkept.bind_ok ?_
  exact Hierarchy.answers_pure _

theorem guesses_eq (h : Hierarchy) : guesses h =
    ((findings h).toList.filter fun e => tells h e.new).map fun e =>
      ⟨e.owner, e.name, e.descriptor, e.new⟩ := by
  have hanswer := (answers_guess h).answer_eq
  rw [Query.answer] at hanswer
  rw [guesses]
  split
  · rename_i hrun
    rw [hrun] at hanswer
    exact Except.ok.inj hanswer
  · rename_i hrun
    rw [hrun] at hanswer
    cases hanswer

theorem mem_guesses {g : Guess} : g ∈ guesses h ↔
    (findings h).get? g.owner g.descriptor g.name = some g.element ∧ tells h g.element = true := by
  rw [guesses_eq, List.mem_map]
  constructor
  · rintro ⟨e, he, rfl⟩
    rw [List.mem_filter] at he
    exact ⟨(MemberTable.mem_toList _).mp he.1, he.2⟩
  · rintro ⟨hget, htells⟩
    exact ⟨⟨g.owner, g.descriptor, g.name, g.element⟩,
      List.mem_filter.mpr ⟨(MemberTable.mem_toList _).mpr hget, htells⟩, rfl⟩

theorem mem_flatMap_found {o d n element : String} :
    ⟨o, d, n, element⟩ ∈ (h.pool.classes.flatMap fun c => found h c c.methods) ↔
      ∃ c ∈ h.pool.classes, ∃ m ∈ c.methods, c.name = o ∧ m.descriptor = d ∧ m.name = n ∧
        Finds h c m element := by
  simp only [List.mem_flatMap, found, List.mem_filterMap, Option.map_eq_some_iff, find?_eq_some_iff,
    MemberTable.Entry.mk.injEq]
  constructor
  · rintro ⟨c, hc, m, hm, e, hfinds, ho, hd, hn, rfl⟩
    exact ⟨c, hc, m, hm, ho, hd, hn, hfinds⟩
  · rintro ⟨c, hc, m, hm, ho, hd, hn, hfinds⟩
    exact ⟨c, hc, m, hm, element, hfinds, ho, hd, hn, rfl⟩

/-- A guess is for a method of the pool for which the type is found. -/
theorem finds_of_mem_guesses {g : Guess} (hg : g ∈ guesses h) :
    tells h g.element = true ∧ ∃ c ∈ h.pool.classes, ∃ m ∈ c.methods,
      c.name = g.owner ∧ m.descriptor = g.descriptor ∧ m.name = g.name ∧ Finds h c m g.element := by
  obtain ⟨hget, htells⟩ := mem_guesses.mp hg
  refine ⟨htells, ?_⟩
  rcases MemberTable.get?_foldl_put_eq_some hget with hmem | hempty
  · exact mem_flatMap_found.mp hmem
  · cases hempty

/-! ## Visited instructions -/

end Collections

namespace Simulation

theorem instructions_run {b : Body} {position : Nat} {l : List Instruction} {s : State}
    (hrun : (run b position l s).2 = none) : (run b position l s).1.map Visit.instruction = l := by
  induction l generalizing position s with
  | nil => rfl
  | cons i rest ih =>
    cases hstep : Sim.step b position i s with
    | error fault => simp [run, hstep] at hrun
    | ok result =>
      simp only [run, hstep] at hrun ⊢
      rw [List.map_cons, ih hrun]

theorem instructions_walk {c : Class} {m : Method} (hwalk : (walk c m).outcome = .ok .walked) :
    (walk c m).visits.map Visit.instruction = m.instructions := by
  unfold walk at hwalk ⊢
  split at hwalk
  · cases hwalk
  · rename_i hversion
    rw [if_neg hversion]
    cases henter : Sim.enter c.name m State.start with
    | error fault => simp [henter] at hwalk
    | ok result =>
      simp only [henter] at hwalk ⊢
      apply instructions_run
      split at hwalk
      · assumption
      · cases hwalk

theorem visits_of_skipped {c : Class} {m : Method} (hwalk : (walk c m).outcome = .ok .skipped) :
    (walk c m).visits = [] := by
  unfold walk at hwalk ⊢
  split at hwalk
  · rename_i hversion
    rw [if_pos hversion]
  · cases henter : Sim.enter c.name m State.start with
    | error fault => simp [henter] at hwalk
    | ok result =>
      simp only [henter] at hwalk
      split at hwalk <;> cases hwalk

end Simulation

namespace Collections

variable {h : Hierarchy}

/-- A walk that leads to a type visits every instruction. -/
theorem Finds.visited {c : Class} {m : Method} {element : String} (hfinds : Finds h c m element) :
    (Simulation.walk c m).visits.map Visit.instruction = m.instructions := by
  obtain ⟨outcome, houtcome⟩ := hfinds.outcome
  obtain ⟨t, hfollow, hreturned⟩ := hfinds.followed
  cases outcome with
  | walked => exact Simulation.instructions_walk houtcome
  | skipped =>
    rw [Simulation.visits_of_skipped houtcome] at hfollow
    obtain rfl := Except.ok.inj hfollow
    cases hreturned

/-! ## Bounds -/

theorem ne_root_of_tells {element : String} (htells : tells h element = true) :
    h.Knows element ∧ element ≠ ClassInfo.rootName := by
  rw [tells, Option.any_eq_true] at htells
  obtain ⟨info, hinfo, hsuper⟩ := htells
  refine ⟨Hierarchy.knows_of_lookup? hinfo, ?_⟩
  rintro rfl
  rw [h.lookup?_root] at hinfo
  cases hinfo
  cases hsuper

/-- No two methods of the class have the same name and descriptor. -/
def HasDistinctMethods (c : Class) : Prop := (c.methods.map fun m => (m.name, m.descriptor)).Nodup

instance (c : Class) : Decidable (HasDistinctMethods c) :=
  inferInstanceAs (Decidable (List.Nodup _))

/-- Where names tell classes and methods apart, they determine the method. -/
theorem eq_of_names (hnames : h.pool.names.Nodup) (hmethods : ∀ c ∈ h.pool.classes, HasDistinctMethods c)
    {c c' : Class} {m m' : Method} (hc : c ∈ h.pool.classes) (hm : m ∈ c.methods)
    (hc' : c' ∈ h.pool.classes) (hm' : m' ∈ c'.methods) (howner : c'.name = c.name)
    (hname : m'.name = m.name) (hdescriptor : m'.descriptor = m.descriptor) : c' = c ∧ m' = m := by
  obtain rfl := List.inj_on_of_nodup_map hnames hc' hc howner
  have hkey : (m'.name, m'.descriptor) = (m.name, m.descriptor) := by rw [hname, hdescriptor]
  exact ⟨rfl, List.inj_on_of_nodup_map (hmethods c' hc') hm' hm hkey⟩

theorem mem_guesses_iff_finds (hnames : h.pool.names.Nodup)
    (hmethods : ∀ c ∈ h.pool.classes, HasDistinctMethods c) {c : Class} {m : Method}
    (hc : c ∈ h.pool.classes) (hm : m ∈ c.methods) {element : String} :
    ⟨c.name, m.name, m.descriptor, element⟩ ∈ guesses h ↔
      Finds h c m element ∧ tells h element = true := by
  constructor
  · intro hg
    obtain ⟨htells, c', hc', m', hm', howner, hdescriptor, hname, hfinds⟩ := finds_of_mem_guesses hg
    obtain ⟨rfl, rfl⟩ := eq_of_names hnames hmethods hc hm hc' hm' howner hname hdescriptor
    exact ⟨hfinds, htells⟩
  · rintro ⟨hfinds, htells⟩
    refine mem_guesses.mpr ⟨MemberTable.get?_foldl_put_of_mem ?_ fun other hother => ?_, htells⟩
    · exact mem_flatMap_found.mpr ⟨c, hc, m, hm, rfl, rfl, rfl, hfinds⟩
    · obtain ⟨c', hc', m', hm', howner, hdescriptor, hname, hfinds'⟩ := mem_flatMap_found.mp hother
      obtain ⟨rfl, rfl⟩ := eq_of_names hnames hmethods hc hm hc' hm' howner hname hdescriptor
      rw [← find?_eq_some_iff] at hfinds hfinds'
      exact Option.some.inj (hfinds'.symm.trans hfinds)

/-- What is added to a collection before it is returned lies below the type that is found. -/
theorem Finds.below (hwf : h.WellFormed) {c : Class} {m : Method} {element type : String}
    (hfinds : Finds h c m element) {i r id : Nat} {v w : Visit} (hir : i < r)
    (hi : (Simulation.walk c m).visits[i]? = some v) (hr : (Simulation.walk c m).visits[r]? = some w)
    (hv : v.Adds h id type) (hw : w.Returns id) : h.Below type element := by
  obtain ⟨t, hfollow, hreturned⟩ := hfinds.followed
  obtain ⟨known, hknown, hbelow⟩ := Tracker.below_of_adds_of_returns hwf hfollow hir hi hr hv hw
  rw [hreturned] at hknown
  cases hknown
  exact hbelow

end Collections

open Collections in
/-- In a well-formed hierarchy a guess is for a method of the pool that is static and has no signature. It is
not the root, and every type that is added to a collection before the method returns the collection can be
assigned to it. Where names tell classes and methods apart, there is no other method that the guess names. -/
theorem guesses_bound_elements {h : Hierarchy} (hwf : h.WellFormed) (g : Guess) (hg : g ∈ guesses h) :
    ∃ c ∈ h.pool.classes, ∃ m ∈ c.methods,
      c.name = g.owner ∧ m.name = g.name ∧ m.descriptor = g.descriptor ∧
      m.isStatic = true ∧ m.signature = none ∧ g.element ≠ ClassInfo.rootName ∧
      (Simulation.walk c m).visits.map Visit.instruction = m.instructions ∧
      (∀ (i r : Nat) (v w : Visit) (id : Nat) (type : String), i < r →
        (Simulation.walk c m).visits[i]? = some v → (Simulation.walk c m).visits[r]? = some w →
        v.Adds h id type → w.Returns id → h.Assignable g.element type) ∧
      (h.pool.names.Nodup → (∀ c ∈ h.pool.classes, HasDistinctMethods c) →
        ∀ c' ∈ h.pool.classes, ∀ m' ∈ c'.methods, c'.name = g.owner → m'.name = g.name →
          m'.descriptor = g.descriptor → c' = c ∧ m' = m) := by
  obtain ⟨htells, c, hc, m, hm, howner, hdescriptor, hname, hfinds⟩ := finds_of_mem_guesses hg
  obtain ⟨hknows, hroot⟩ := ne_root_of_tells htells
  refine ⟨c, hc, m, hm, howner, hname, hdescriptor, hfinds.isStatic, hfinds.signature, hroot,
    hfinds.visited, ?_, ?_⟩
  · intro i r v w id type hir hi hr hv hw
    have hbelow : h.Below type g.element := hfinds.below hwf hir hi hr hv hw
    exact (hwf.assignable_iff hknows (hknows.of_below hbelow)).mpr hbelow
  · intro hnames hmethods c' hc' m' hm' howner' hname' hdescriptor'
    exact eq_of_names hnames hmethods hc hm hc' hm' (howner'.trans howner.symm)
      (hname'.trans hname.symm) (hdescriptor'.trans hdescriptor.symm)

namespace Samples

open Collections (addDescriptor)

/-- A method that puts its parameters into a new bag, one after the other, and returns it. -/
def pack (name descriptor : String) (count : UInt16) : Method where
  access := 0x0009
  name := name
  descriptor := descriptor
  maxStack := 2
  maxLocals := count + 1
  instructions := [.type 0xbb "q/Bag", .insn 0x59, .method 0xb7 "q/Bag" "<init>" "()V" false, .var 0x3a count] ++
    (List.range count.toNat).flatMap (fun slot => [.var 0x19 count, .var 0x19 (UInt16.ofNat slot),
      .method 0xb6 "q/Bag" "add" addDescriptor false, .insn 0x57]) ++
    [.var 0x19 count, .insn 0xb0]

def packers : Class where
  version := 52
  name := "q/Packers"
  superName := some "java/lang/Object"
  methods := [pack "both" "(Lp/Ball;Lp/Box;)Lq/Bag;" 2]

/-- Two classes share an interface that their superclass lacks. -/
def store : Hierarchy where
  pool := (Pool.ofClasses [
    { name := "p/Shape", access := 0x0601, superName := some "java/lang/Object" },
    { name := "p/Base", superName := some "java/lang/Object" },
    { name := "p/Ball", superName := some "p/Base", interfaces := ["p/Shape"] },
    { name := "p/Box", superName := some "p/Base", interfaces := ["p/Shape"] },
    { name := "q/Bag", superName := some "java/lang/Object", interfaces := ["java/util/Collection"] },
    packers]).toOption.getD Pool.empty
  loader := Loader.ofInfos [Platform.interfaceInfo "java/util/Collection" []]

def storeOrder : List String := ["java/lang/Object", "java/util/Collection", "p/Shape", "p/Base",
  "p/Ball", "p/Box", "q/Bag", "q/Packers"]

theorem isOrdered_store : store.isOrdered storeOrder = true := by decide +kernel

end Samples

open Samples Collections in
theorem guesses_bound_elements_store : store.WellFormed ∧
    (⟨"q/Packers", "both", "(Lp/Ball;Lp/Box;)Lq/Bag;", "p/Base"⟩ : Guess) ∈ guesses store ∧
    store.Assignable "p/Base" "p/Ball" ∧ store.Assignable "p/Base" "p/Box" := by
  have hwf : store.WellFormed := Hierarchy.wellFormed_of_isOrdered isOrdered_store
  have hg : (⟨"q/Packers", "both", "(Lp/Ball;Lp/Box;)Lq/Bag;", "p/Base"⟩ : Guess) ∈ guesses store := by
    decide +kernel
  obtain ⟨c, hc, m, hm, howner, hname, hdescriptor, -, -, -, -, hbound, hunique⟩ :=
    guesses_bound_elements hwf _ hg
  have hpackers : packers ∈ store.pool.classes := List.mem_of_getElem? (i := 5) rfl
  obtain ⟨rfl, rfl⟩ := hunique (by decide +kernel) (by decide +kernel) packers hpackers
    (pack "both" "(Lp/Ball;Lp/Box;)Lq/Bag;" 2) List.mem_cons_self rfl rfl rfl
  have hadds : ∀ i type, ((Simulation.walk packers (pack "both" "(Lp/Ball;Lp/Box;)Lq/Bag;" 2)).visits[i]?.bind
      (Visit.added? store)) = some (4, type) → i < 13 → store.Assignable "p/Base" type := by
    intro i type hi hlt
    obtain ⟨v, hv, hadded⟩ := Option.bind_eq_some_iff.mp hi
    have hlast : ((Simulation.walk packers (pack "both" "(Lp/Ball;Lp/Box;)Lq/Bag;" 2)).visits[13]?.bind
        Visit.returned?) = some 4 := by
      decide +kernel
    obtain ⟨w, hw, hreturned⟩ := Option.bind_eq_some_iff.mp hlast
    exact hbound i 13 v w 4 type hlt hv hw (Visit.adds_of_added? hadded)
      (Visit.returns_of_returned? hreturned)
  exact ⟨hwf, hg, hadds 6 "p/Ball" (by decide +kernel) (by decide),
    hadds 10 "p/Box" (by decide +kernel) (by decide)⟩

end Classmith
