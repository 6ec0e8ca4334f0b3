import Classmith.Proofs.Collections.Guesses
import Classmith.Proofs.Hierarchy.Totals
import Classmith.Proofs.Rename.Members
import Classmith.Proofs.Simulation.Locals
import Classmith.Proofs.Simulation.Shuffles

/-!
# Orders of insertion

A method without jumps that fills one collection and returns it is guessed to return what the types of the
elements come to when they are merged in the order in which they are added. The order makes no difference
exactly for settled types.
-/
namespace Classmith

open Simulation (Body State Value Visit)

namespace Collections

variable {h : Hierarchy}

/-! ## Merges in order -/

/-- Merges types into what is known, one after the other. -/
def gather (h : Hierarchy) (known : Option String) (types : List String) : Except Error (Option String) :=
  types.foldlM (fun known type => (Query.answer (Tracker.merge h known type)).map some) known

theorem gather_cons (known : Option String) (type : String) (rest : List String) :
    gather h known (type :: rest) =
      (Query.answer (Tracker.merge h known type)).map some >>= fun next => gather h next rest :=
  List.foldlM_cons

theorem knows_of_gather {known found : Option String} {types : List String}
    (hgather : gather h known types = .ok found) : ∀ e ∈ types, h.Knows e := by
  induction types generalizing known with
  | nil => simp
  | cons type rest ih =>
    rw [gather_cons] at hgather
    obtain ⟨next, hnext, hrest⟩ := exists_of_bind_eq_ok hgather
    obtain ⟨merged, hmerge, -⟩ := exists_of_map_eq_ok hnext
    intro e he
    rcases List.mem_cons.mp he with rfl | he
    · exact (Tracker.knows_of_merge hmerge).1
    · exact ih hrest e he

section WellFormed

variable (hwf : h.WellFormed)

include hwf

theorem exists_accumulates {x : String} {rest : List String} (hx : h.Knows x)
    (hrest : ∀ e ∈ rest, h.Knows e) : ∃ r, h.Accumulates x rest r ∧ gather h (some x) rest = .ok (some r) := by
  induction rest generalizing x with
  | nil => exact ⟨x, .done x, rfl⟩
  | cons type rest ih =>
    obtain ⟨merged, hmerge, hmerges⟩ :=
      Tracker.merge_some_of_knows hwf hx (hrest type List.mem_cons_self)
    obtain ⟨r, haccumulates, hgather⟩ := ih (hwf.knows_of_below hx hmerges.left)
      fun e he => hrest e (List.mem_cons_of_mem type he)
    refine ⟨r, .next hmerges haccumulates, ?_⟩
    rw [gather_cons, hmerge]
    exact hgather

/-- Known types are all merged. -/
theorem exists_gather {first : String} {rest : List String} (hknown : ∀ e ∈ first :: rest, h.Knows e) :
    ∃ r, h.Accumulates first rest r ∧ gather h none (first :: rest) = .ok (some r) := by
  have hfirst : h.Knows first := hknown first List.mem_cons_self
  obtain ⟨r, haccumulates, hgather⟩ :=
    exists_accumulates hwf hfirst fun e he => hknown e (List.mem_cons_of_mem first he)
  refine ⟨r, haccumulates, ?_⟩
  rw [gather_cons, Tracker.merge_none_of_knows hwf hfirst]
  exact hgather

/-- What settled types come to depends on the types only. -/
theorem gather_eq_ok_iff {types : List String} (hsettled : h.Settled types) {element : String} :
    gather h none types = .ok (some element) ↔
      types ≠ [] ∧ (∀ e ∈ types, h.Knows e) ∧ h.Total types element := by
  cases types with
  | nil =>
    refine ⟨fun hgather => ?_, fun htypes => absurd rfl htypes.1⟩
    cases hgather
  | cons first rest =>
    constructor
    · intro hgather
      have hknown := knows_of_gather hgather
      obtain ⟨r, haccumulates, hgather'⟩ := exists_gather hwf hknown
      rw [hgather'] at hgather
      cases hgather
      exact ⟨List.cons_ne_nil first rest, hknown, haccumulates.total hwf hsettled hknown⟩
    · rintro ⟨-, hknown, htotal⟩
      obtain ⟨r, haccumulates, hgather⟩ := exists_gather hwf hknown
      rw [hgather, htotal.unique hwf hknown (haccumulates.total hwf hsettled hknown)]

end WellFormed

/-! ## Methods that fill a collection -/

/-- The visits add elements of the types, in their order, to one collection, and return it. -/
inductive Gathering (h : Hierarchy) (id : Nat) : List Visit → List String → Prop
  | returned {v : Visit} {rest : List Visit} (returns : v.Returns id) (idle : ∀ w ∈ rest, w.isIdle = true) :
    Gathering h id (v :: rest) []
  | idle {v : Visit} {rest : List Visit} {types : List String} (isIdle : v.isIdle = true)
    (gathering : Gathering h id rest types) : Gathering h id (v :: rest) types
  | added {v : Visit} {rest : List Visit} {type : String} {types : List String} (adds : v.Adds h id type)
    (gathering : Gathering h id rest types) : Gathering h id (v :: rest) (type :: types)

theorem follow_of_idle {visits : List Visit} (hidle : ∀ v ∈ visits, v.isIdle = true) (t : Tracker) :
    Tracker.follow h visits t = .ok t := by
  induction visits with
  | nil => rfl
  | cons v rest ih =>
    rw [Tracker.follow, List.foldlM_cons, Tracker.visit_of_isIdle (hidle v List.mem_cons_self)]
    exact ih fun w hw => hidle w (List.mem_cons_of_mem v hw)

/-- What a tracker knows of the returned collection at the end is what the types come to. -/
theorem returned_of_gathering (hwf : h.WellFormed) {id : Nat} {visits : List Visit} {types : List String}
    (hvisits : Gathering h id visits types) {t : Tracker} (hnone : t.returned = none)
    (hknown : ∀ x, t.element? id = some x → h.Knows x) :
    (Tracker.follow h visits t).map Tracker.returned = gather h (t.element? id) types := by
  -- Along the visits nothing is returned before the end, and what is known of the collection is a class
  -- that resolves, so the merge at the return leaves it as it is.
  induction hvisits generalizing t with
  | @returned v rest hreturns hidle =>
    rw [Tracker.follow, List.foldlM_cons, Tracker.visit_of_returns hreturns]
    cases helement : t.element? id with
    | none =>
      change (Tracker.follow h rest t).map Tracker.returned = .ok none
      rw [follow_of_idle hidle, ← hnone]
      rfl
    | some x =>
      have hmerge : Query.answer (Tracker.merge h t.returned x) = .ok x := by
        rw [hnone, Tracker.merge_none_of_knows hwf (hknown x helement)]
      rw [Option.elim_some, Tracker.answer_release, hmerge]
      change (Tracker.follow h rest (t.give x)).map Tracker.returned = .ok (some x)
      rw [follow_of_idle hidle]
      rfl
  | @idle v rest types hidle _ ih =>
    rw [Tracker.follow, List.foldlM_cons, Tracker.visit_of_isIdle hidle]
    exact ih hnone hknown
  | @added v rest type types hadds _ ih =>
    rw [Tracker.follow, List.foldlM_cons, Tracker.answer_visit_of_adds hwf hadds, Tracker.answer_absorb,
      gather_cons]
    cases hmerge : Query.answer (Tracker.merge h (t.element? id) type) with
    | error e => rfl
    | ok merged =>
      have hmerged : (t.learn id merged).element? id = some merged := by
        rw [Tracker.element?_learn, if_pos rfl]
      have hrest := ih (t := t.learn id merged) hnone fun x hx => by
        rw [hmerged] at hx
        cases hx
        exact hwf.knows_of_below (Tracker.knows_of_merge hmerge).1 (Tracker.below_of_merge hwf hmerge).1
      rw [hmerged] at hrest
      exact hrest

/-- A static method without a signature that fills one collection with elements of the types, in their order,
and returns it. -/
structure Fills (h : Hierarchy) (c : Class) (m : Method) (types : List String) : Prop where
  registered : c ∈ h.pool.classes
  declared : m ∈ c.methods
  isStatic : m.isStatic = true
  signature : m.signature = none
  returns : returns h m = true
  outcome : (Simulation.walk c m).outcome = .ok .walked
  gathering : ∃ id, Gathering h id (Simulation.walk c m).visits types

theorem Fills.finds_iff (hwf : h.WellFormed) {c : Class} {m : Method} {types : List String}
    (hfills : Fills h c m types) {element : String} :
    Finds h c m element ↔ gather h none types = .ok (some element) := by
  obtain ⟨id, hgathering⟩ := hfills.gathering
  have hreturned := returned_of_gathering hwf hgathering (t := Tracker.start) rfl fun x hx => by cases hx
  change _ = gather h none types at hreturned
  rw [← hreturned]
  constructor
  · intro hfinds
    obtain ⟨t, hfollow, hknown⟩ := hfinds.followed
    rw [hfollow, ← hknown]
    rfl
  · intro hmap
    refine ⟨hfills.isStatic, hfills.signature, hfills.returns, ⟨_, hfills.outcome⟩, ?_⟩
    exact exists_of_map_eq_ok hmap

/-! ## Code that fills a collection -/

/-- Adds a value of the type to the collection on the stack and leaves the collection there. -/
def insertion (owner type : String) : List Instruction := [.insn 0x59,
  .field 0xb2 type "sample" ("L" ++ type ++ ";"), .method 0xb6 owner "add" addDescriptor false, .insn 0x57]

/-- Makes a collection, adds a value of each type to it and returns it. -/
def fillWith (name owner : String) (types : List String) : Method where
  access := 0x0009
  name := name
  descriptor := "()Ljava/util/Collection;"
  maxStack := 3
  instructions := [.type 0xbb owner, .insn 0x59, .method 0xb7 owner "<init>" "()V" false] ++
    (types.flatMap (insertion owner) ++ [.insn 0xb0])

end Collections

namespace Simulation

theorem run_cons_of_ok {b : Body} {position : Nat} {i : Instruction} {rest : List Instruction}
    {s next : State} (hstep : Sim.step b position i s = .ok ((), next)) :
    run b position (i :: rest) s = (⟨position, i, s, some next⟩ :: (run b (position + 1) rest next).1,
      (run b (position + 1) rest next).2) := by
  simp [run, hstep]

section Steps

variable (b : Body) (position : Nat) {s : State} {v : Value} {rest : List Value}

theorem step_dup (hstack : s.stack = v :: rest) (hv : v.category = some .one) :
    Sim.step b position (.insn 0x59) s = .ok ((), { s with stack := v :: v :: rest }) := by
  have hdivides : (Shuffle.dup .dup).Divides s.stack [v] [] rest :=
    ⟨hstack, Sim.fills_one_iff.mpr ⟨v, rfl, hv⟩, fills_zero.mpr rfl⟩
  exact (congrFun (Sim.step_shuffle b position (.dup .dup)) s).trans
    (Sim.applyEffect_of_divides position hdivides)

theorem step_pop (hstack : s.stack = v :: rest) (hv : v.category = some .one) :
    Sim.step b position (.insn 0x57) s = .ok ((), { s with stack := rest }) := by
  have hdivides : Shuffle.pop.Divides s.stack [v] [] rest :=
    ⟨hstack, Sim.fills_one_iff.mpr ⟨v, rfl, hv⟩, fills_zero.mpr rfl⟩
  exact (congrFun (Sim.step_shuffle b position .pop) s).trans
    (Sim.applyEffect_of_divides position hdivides)

theorem step_getstatic (s : State) (owner name descriptor : String) :
    Sim.step b position (.field 0xb2 owner name descriptor) s = .ok ((), { s with
      stack := .mk (s.created + 1) (some descriptor) true false (.fieldRead position) :: s.stack
      created := s.created + 1 }) := rfl

theorem pushResult_of_ne (origin : Origin) {result : String} (hresult : result ≠ "V") (s : State) :
    Sim.pushResult result origin s = .ok ((), { s with
      stack := .mk (s.created + 1) (some result) true false origin :: s.stack
      created := s.created + 1 }) := by
  rw [Sim.pushResult, if_pos hresult]
  rfl

theorem popN_append (given : List Value) (hstack : s.stack = given ++ rest) :
    Sim.popN given.length s = .ok (given.reverse, { s with stack := rest }) := by
  have hlength : given.length ≤ s.stack.length := by simp [hstack]
  rw [Sim.popN_of_le hlength, hstack, List.drop_left, List.take_left]

theorem step_return (hstack : s.stack = v :: rest) :
    Sim.step b position (.insn 0xb0) s = .ok ((), { s with stack := rest }) := by
  change (Sim.popN [v].length >>= fun _ => pure ()) s = _
  rw [Sim.bind_of_ok (popN_append [v] hstack)]
  rfl

/-- A call takes its arguments, and the receiver if there is one, and gives its result. -/
theorem invoke_append {descriptor : String} {type : Descriptor.MethodType}
    (hsplit : Descriptor.split descriptor = .ok type) (receiver : Bool) (origin : Origin) {given : List Value}
    (hgiven : given.length = type.parameters.length + receiver.toNat) (hstack : s.stack = given ++ rest) :
    Sim.invoke descriptor receiver origin s = Sim.pushResult type.result origin { s with stack := rest } := by
  rw [Sim.invoke_eq hsplit]
  cases receiver with
  | false =>
    rw [show type.parameters.length = given.length from hgiven.symm, Sim.bind_of_ok (popN_append given hstack)]
    rfl
  | true =>
    obtain rfl | ⟨args, v, rfl⟩ := given.eq_nil_or_concat
    · simp at hgiven
    · have hargs : args.length = type.parameters.length := by simpa using hgiven
      have hstack' : s.stack = args ++ v :: rest := by simpa using hstack
      rw [← hargs, Sim.bind_of_ok (popN_append args hstack')]
      exact Sim.bind_of_ok (Sim.pop_cons (s := { s with stack := v :: rest }) rfl) _

theorem step_call {opcode : UInt8} (hopcode : opcode = 0xb6 ∨ opcode = 0xb7) {descriptor : String}
    {type : Descriptor.MethodType} (hsplit : Descriptor.split descriptor = .ok type) (given : List Value)
    (hgiven : given.length = type.parameters.length) (hstack : s.stack = given ++ v :: rest)
    (owner name : String) (isInterface : Bool) :
    Sim.step b position (.method opcode owner name descriptor isInterface) s =
      Sim.pushResult type.result (.methodReturn position) { s with stack := rest } := by
  have hstep : Sim.step b position (.method opcode owner name descriptor isInterface) =
      Sim.invoke descriptor true (.methodReturn position) := by
    rcases hopcode with rfl | rfl <;> rfl
  have hpopped : (given ++ [v]).length = type.parameters.length + true.toNat := by simp [hgiven]
  rw [hstep]
  exact invoke_append hsplit true _ hpopped (by simp [hstack])

end Steps

end Simulation

namespace Collections

variable {h : Hierarchy}

theorem split_addDescriptor :
    Descriptor.split addDescriptor = .ok ⟨["Ljava/lang/Object;"], "Z"⟩ :=
  Descriptor.split_eq_ok_iff.mpr (by decide)

/-- From a state with the collection on the stack the code fills the collection and returns it. -/
theorem gathering_insertions {owner : String} (howner : h.Implements owner collectionName)
    (types : List String) (b : Body) (position : Nat) {s : State} {v : Value} (hstack : s.stack = [v])
    (hv : v.category = some .one) :
    Gathering h v.stripCasts.id
      (Simulation.run b position (types.flatMap (insertion owner) ++ [.insn 0xb0]) s).1 types ∧
    (Simulation.run b position (types.flatMap (insertion owner) ++ [.insn 0xb0]) s).2 = none := by
  induction types generalizing position s with
  | nil =>
    rw [List.flatMap_nil, List.nil_append, Simulation.run_cons_of_ok (Simulation.step_return b position hstack)]
    refine ⟨.returned ⟨rfl, ?_⟩ (by simp [Simulation.run]), rfl⟩
    simp [State.peek?, hstack]
  | cons type rest ih =>
    have hcode : (type :: rest).flatMap (insertion owner) ++ [.insn 0xb0] =
        .insn 0x59 :: .field 0xb2 type "sample" ("L" ++ type ++ ";") ::
          .method 0xb6 owner "add" addDescriptor false :: .insn 0x57 ::
            (rest.flatMap (insertion owner) ++ [.insn 0xb0]) := rfl
    let element : Value := .mk (s.created + 1) (some ("L" ++ type ++ ";")) true false (.fieldRead (position + 1))
    have hcall := (Simulation.step_call b (position + 2) (Or.inl rfl) split_addDescriptor (v := v)
      (s := ⟨element :: v :: [v], s.locals, s.widths, s.created + 1⟩) [element] rfl rfl owner
      "add" false).trans (Simulation.pushResult_of_ne _ (by decide) _)
    have hclass : element.className? = some type := Descriptor.internalName?_objectType type
    rw [hcode, Simulation.run_cons_of_ok (Simulation.step_dup b position hstack hv),
      Simulation.run_cons_of_ok (Simulation.step_getstatic b (position + 1) _ type "sample" _),
      Simulation.run_cons_of_ok hcall, Simulation.run_cons_of_ok (Simulation.step_pop b _ rfl rfl)]
    -- The insertion has left the collection alone on the stack, as the rest of the code expects it.
    obtain ⟨hgathering, hend⟩ := ih (position + 4)
      (s := ⟨[v], s.locals, s.widths, s.created + 2⟩) rfl
    refine ⟨.idle rfl (.idle rfl (.added ⟨0xb6, owner, false, rfl, howner, ?_⟩ (.idle rfl hgathering))), hend⟩
    change element.className?.map (fun type => (v.stripCasts.id, type)) = some (v.stripCasts.id, type)
    rw [hclass]
    rfl

theorem isInterface_of_implements (hwf : h.WellFormed) {name i : String} (hname : h.Implements name i) :
    h.IsInterface i := by
  obtain ⟨above, info, -, hinfo, ⟨hkind, hself⟩ | hlisted⟩ := hname
  · rw [← hself, hwf.named above info hinfo]
    exact ⟨info, hinfo, hkind⟩
  · exact hwf.interfaces above info hinfo i hlisted

theorem returns_fillWith (hwf : h.WellFormed) (hcollection : h.IsInterface collectionName)
    (name owner : String) (types : List String) : returns h (fillWith name owner types) = true := by
  have hclass : Descriptor.returnedClass? "()Ljava/util/Collection;" = some collectionName := by
    decide
  have hself : h.Implements collectionName collectionName :=
    (hwf.implements_iff_below hcollection).mpr .refl
  change ((Descriptor.returnedClass? "()Ljava/util/Collection;").bind _).getD false = true
  rw [hclass, Option.bind_some, (Tracker.answers_isCollection_true hwf hself).answer_eq]
  rfl

theorem isStatic_fillWith (name owner : String) (types : List String) :
    (fillWith name owner types).isStatic = true := by
  change Access.isStatic 0x0009 = true
  decide

theorem enter_fillWith (className name owner : String) (types : List String) :
    Simulation.Sim.enter className (fillWith name owner types) State.start = .ok ((), State.start) := by
  have hsplit : Descriptor.split "()Ljava/util/Collection;" = .ok ⟨[], "Ljava/util/Collection;"⟩ :=
    Descriptor.split_eq_ok_iff.mpr (by decide)
  rw [Simulation.Sim.enter_eq (m := fillWith name owner types) hsplit, if_pos (isStatic_fillWith _ _ _)]
  rfl

theorem gathering_fillWith {owner : String} (howner : h.Implements owner collectionName) (name : String)
    (types : List String) (b : Body) :
    Gathering h 1 (Simulation.run b 0 (fillWith name owner types).instructions State.start).1 types ∧
      (Simulation.run b 0 (fillWith name owner types).instructions State.start).2 = none := by
  let made : Value := .mk 1 (some (Descriptor.ofName owner)) true false (.newObject 0)
  have hmade : made.category = some .one := congrArg some (Descriptor.category_ofName owner)
  have hsplit : Descriptor.split "()V" = .ok ⟨[], "V"⟩ :=
    Descriptor.split_eq_ok_iff.mpr (by decide)
  have hnew : Simulation.Sim.step b 0 (.type 0xbb owner) State.start =
      .ok ((), ⟨[made], [], [], 1⟩) := rfl
  have hinit : Simulation.Sim.step b 2 (.method 0xb7 owner "<init>" "()V" false)
      ⟨[made, made], [], [], 1⟩ = .ok ((), ⟨[made], [], [], 1⟩) :=
    Simulation.step_call b 2 (Or.inr rfl) hsplit [] rfl rfl owner "<init>" false
  have hcode : (fillWith name owner types).instructions = .type 0xbb owner :: .insn 0x59 ::
      .method 0xb7 owner "<init>" "()V" false :: (types.flatMap (insertion owner) ++ [.insn 0xb0]) := rfl
  rw [hcode, Simulation.run_cons_of_ok hnew, Simulation.run_cons_of_ok (Simulation.step_dup b 1 rfl hmade),
    Simulation.run_cons_of_ok hinit]
  obtain ⟨hgathering, hend⟩ := gathering_insertions howner types b 3 (s := ⟨[made], [], [], 1⟩) rfl hmade
  exact ⟨.idle rfl (.idle rfl (.idle rfl hgathering)), hend⟩

/-- The method fills one collection with elements of the types, in their order, and returns it. -/
theorem fills_fillWith (hwf : h.WellFormed) {c : Class} (hc : c ∈ h.pool.classes)
    (hversion : Simulation.lastWithoutFrames < c.version) {name owner : String} {types : List String}
    (hm : fillWith name owner types ∈ c.methods) (howner : h.Implements owner collectionName) :
    Fills h c (fillWith name owner types) types := by
  obtain ⟨hgathering, hend⟩ :=
    gathering_fillWith howner name types ⟨c.name, (fillWith name owner types).instructions⟩
  have hwalk : Simulation.walk c (fillWith name owner types) =
      ⟨(Simulation.run ⟨c.name, (fillWith name owner types).instructions⟩ 0
        (fillWith name owner types).instructions State.start).1, .ok .walked⟩ := by
    rw [Simulation.walk, if_neg (UInt16.not_le.mpr hversion), enter_fillWith]
    simp only [hend]
  refine ⟨hc, hm, isStatic_fillWith name owner types, rfl,
    returns_fillWith hwf (isInterface_of_implements hwf howner) name owner types, ?_, 1, ?_⟩
  · rw [hwalk]
  · rw [hwalk]
    exact hgathering

/-! ## Guesses -/

theorem tells_of_ne_root (hwf : h.WellFormed) {element : String} (hknows : h.Knows element)
    (hroot : element ≠ ClassInfo.rootName) : tells h element = true := by
  obtain ⟨info, hinfo⟩ := Option.isSome_iff_exists.mp hknows
  rw [tells, hinfo]
  exact hwf.superName element info hinfo hroot

theorem Fills.mem_guesses_iff (hwf : h.WellFormed) (hnames : h.pool.names.Nodup)
    (hmethods : ∀ c ∈ h.pool.classes, HasDistinctMethods c) {c : Class} {m : Method} {types : List String}
    (hfills : Fills h c m types) {element : String} :
    ⟨c.name, m.name, m.descriptor, element⟩ ∈ guesses h ↔
      gather h none types = .ok (some element) ∧ tells h element = true := by
  rw [mem_guesses_iff_finds hnames hmethods hfills.registered hfills.declared, hfills.finds_iff hwf]

theorem gather_perm (hwf : h.WellFormed) {types types' : List String} (hsettled : h.Settled types)
    (hperm : types'.Perm types) {element : String} :
    gather h none types' = .ok (some element) ↔ gather h none types = .ok (some element) := by
  have hsame : ∀ e, e ∈ types' ↔ e ∈ types := fun e => hperm.mem_iff
  rw [gather_eq_ok_iff hwf hsettled, gather_eq_ok_iff hwf (hsettled.congr hsame)]
  refine and_congr (not_congr ⟨?_, ?_⟩) (and_congr (by simp only [hsame]) ⟨?_, ?_⟩)
  · rintro rfl
    exact hperm.symm.eq_nil
  · rintro rfl
    exact hperm.eq_nil
  · exact Hierarchy.Total.congr fun e => (hsame e).symm
  · exact Hierarchy.Total.congr hsame

end Collections

open Collections in
/-- Settled types give the same guesses in every order: of two methods that each fill one collection with
elements of the types, in orders of their own, either both or none are guessed to return elements of a type.
Other types have an order in which the guess is the interface above all of them, and one without a guess. -/
theorem insertion_order_matters_unless_settled {h : Hierarchy} (hwf : h.WellFormed)
    (hnames : h.pool.names.Nodup) (hmethods : ∀ c ∈ h.pool.classes, HasDistinctMethods c)
    (types : List String) :
    (h.Settled types → ∀ l l', l.Perm types → l'.Perm types → ∀ c m c' m', Fills h c m l →
      Fills h c' m' l' → ∀ element, ⟨c.name, m.name, m.descriptor, element⟩ ∈ guesses h ↔
        ⟨c'.name, m'.name, m'.descriptor, element⟩ ∈ guesses h) ∧
    (¬h.Settled types → ∃ l l' top, l.Perm types ∧ l'.Perm types ∧ top ∈ types ∧ h.IsInterface top ∧
      (∀ c m, Fills h c m l → ⟨c.name, m.name, m.descriptor, top⟩ ∈ guesses h) ∧
      ∀ c m, Fills h c m l' → ∀ element, ⟨c.name, m.name, m.descriptor, element⟩ ∉ guesses h) := by
  constructor
  · intro hsettled l l' hl hl' c m c' m' hfills hfills' element
    rw [hfills.mem_guesses_iff hwf hnames hmethods, hfills'.mem_guesses_iff hwf hnames hmethods,
      gather_perm hwf hsettled hl, gather_perm hwf hsettled hl']
  · intro hnot
    obtain ⟨top, rest, a, rest', hperm, hperm', hkind, hall, hkeeps, hloses⟩ :=
      Hierarchy.exists_orders hwf hnot
    have hknown : ∀ {l : List String}, types.Perm l → ∀ e ∈ l, h.Knows e := fun hl e he =>
      hkind.knows.of_below (hall e (hl.mem_iff.mpr he))
    have htopne : top ≠ ClassInfo.rootName := by
      rintro rfl
      exact h.isClass_root.not_isInterface hkind
    refine ⟨top :: rest, a :: rest', top, hperm.symm, hperm'.symm,
      hperm.mem_iff.mpr List.mem_cons_self, hkind, fun c m hfills => ?_, fun c m hfills element hg => ?_⟩
    · obtain ⟨r, hrun, hgather⟩ := exists_gather hwf (hknown hperm)
      rw [hkeeps r hrun] at hgather
      exact (hfills.mem_guesses_iff hwf hnames hmethods).mpr
        ⟨hgather, tells_of_ne_root hwf hkind.knows htopne⟩
    · obtain ⟨r, hrun, hgather⟩ := exists_gather hwf (hknown hperm')
      obtain ⟨hgather', htells⟩ := (hfills.mem_guesses_iff hwf hnames hmethods).mp hg
      rw [hgather, hloses r hrun] at hgather'
      cases hgather'
      exact (ne_root_of_tells htells).2 rfl

namespace Samples

open Collections (fillWith)

def fillers : Class where
  version := 52
  name := "q/Fillers"
  superName := some "java/lang/Object"
  methods := [
    fillWith "ballFirst" "q/Bag" ["p/Ball", "p/Box"],
    fillWith "boxFirst" "q/Bag" ["p/Box", "p/Ball"],
    fillWith "shapeFirst" "q/Bag" ["p/Shape", "p/Ball", "p/Box"],
    fillWith "shapeLast" "q/Bag" ["p/Ball", "p/Box", "p/Shape"]]

/-- A store with methods that fill bags. -/
def depot : Hierarchy :=
  { store with pool := (Pool.ofClasses (store.pool.classes ++ [fillers])).toOption.getD Pool.empty }

theorem isOrdered_depot : depot.isOrdered (storeOrder ++ ["q/Fillers"]) = true := by decide

theorem wellFormed_depot : depot.WellFormed := Hierarchy.wellFormed_of_isOrdered isOrdered_depot

/-- The methods of the class fill one bag each. -/
theorem fills_fillers (name : String) {types : List String}
    (hm : fillWith name "q/Bag" types ∈ fillers.methods) :
    Collections.Fills depot fillers (fillWith name "q/Bag" types) types := by
  have hbag : depot.Implements "q/Bag" Collections.collectionName :=
    ⟨"q/Bag", ⟨"q/Bag", some "java/lang/Object", ["java/util/Collection"], false⟩, .refl, by decide,
      Or.inr List.mem_cons_self⟩
  exact Collections.fills_fillWith wellFormed_depot (List.mem_of_getElem? (i := 6) rfl) (by decide) hm hbag

theorem guesses_depot : Collections.guesses depot = [
    ⟨"q/Fillers", "ballFirst", "()Ljava/util/Collection;", "p/Base"⟩,
    ⟨"q/Fillers", "boxFirst", "()Ljava/util/Collection;", "p/Base"⟩,
    ⟨"q/Fillers", "shapeFirst", "()Ljava/util/Collection;", "p/Shape"⟩,
    ⟨"q/Packers", "both", "(Lp/Ball;Lp/Box;)Lq/Bag;", "p/Base"⟩] := by
  decide +kernel

end Samples

open Samples Collections in
/-- A method that adds an interface and then two classes that implement it has a guess. The method that adds
the interface last has none. -/
theorem guess_lost_to_order :
    Fills depot fillers (fillWith "shapeFirst" "q/Bag" ["p/Shape", "p/Ball", "p/Box"])
      ["p/Shape", "p/Ball", "p/Box"] ∧
    Fills depot fillers (fillWith "shapeLast" "q/Bag" ["p/Ball", "p/Box", "p/Shape"])
      ["p/Ball", "p/Box", "p/Shape"] ∧
    ["p/Shape", "p/Ball", "p/Box"].Perm ["p/Ball", "p/Box", "p/Shape"] ∧
    ⟨"q/Fillers", "shapeFirst", "()Ljava/util/Collection;", "p/Shape"⟩ ∈ guesses depot ∧
    ∀ element, ⟨"q/Fillers", "shapeLast", "()Ljava/util/Collection;", element⟩ ∉ guesses depot := by
  refine ⟨fills_fillers "shapeFirst" (by simp [fillers]), fills_fillers "shapeLast" (by simp [fillers]),
    by decide, ?_, ?_⟩
  · simp [guesses_depot]
  · simp [guesses_depot]

open Samples Collections in
theorem insertion_order_matters_unless_settled_depot : depot.WellFormed ∧
    depot.Settled ["p/Ball", "p/Box"] ∧
    (∀ element, ⟨"q/Fillers", "ballFirst", "()Ljava/util/Collection;", element⟩ ∈ guesses depot ↔
      ⟨"q/Fillers", "boxFirst", "()Ljava/util/Collection;", element⟩ ∈ guesses depot) ∧
    ¬depot.Settled ["p/Ball", "p/Box", "p/Shape"] ∧
    ∃ l top, l.Perm ["p/Ball", "p/Box", "p/Shape"] ∧ depot.IsInterface top ∧ ∀ c m, Fills depot c m l →
      ⟨c.name, m.name, m.descriptor, top⟩ ∈ guesses depot := by
  have hsettled : depot.Settled ["p/Ball", "p/Box"] := by
    intro top htop hkind
    have hclass : depot.IsClass top := by
      rcases List.mem_pair.mp htop with rfl | rfl <;> exact ⟨_, rfl, rfl⟩
    exact absurd hkind hclass.not_isInterface
  have htheorem := insertion_order_matters_unless_settled wellFormed_depot (by decide) (by decide)
  have hnot : ¬depot.Settled ["p/Ball", "p/Box", "p/Shape"] := by
    intro hall
    have hiff := (htheorem _).1 hall ["p/Shape", "p/Ball", "p/Box"] ["p/Ball", "p/Box", "p/Shape"]
      (by decide) .rfl fillers _ fillers _ (fills_fillers "shapeFirst" (by simp [fillers]))
      (fills_fillers "shapeLast" (by simp [fillers])) "p/Shape"
    simp [guesses_depot, fillWith, fillers] at hiff
  obtain ⟨l, l', top, hl, -, -, hkind, hguessed, -⟩ := (htheorem _).2 hnot
  refine ⟨wellFormed_depot, hsettled, ?_, hnot, l, top, hl, hkind, hguessed⟩
  exact (htheorem _).1 hsettled ["p/Ball", "p/Box"] ["p/Box", "p/Ball"] .rfl (by decide) fillers _ fillers _
    (fills_fillers "ballFirst" (by simp [fillers]))
    (fills_fillers "boxFirst" (by simp [fillers]))

end Classmith
