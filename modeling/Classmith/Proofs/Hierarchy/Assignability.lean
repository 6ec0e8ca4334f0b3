import Classmith.Platform
import Classmith.Proofs.Hierarchy.Memory

/-!
# Assignability

In a hierarchy that is put together as a verifier expects it, one class is a subtype of another exactly if
superclasses and interfaces lead from it to the other. The subtype query has two ways to find out, a walk
along superclasses for a class and the closure of interfaces for an interface; both decide this relation.
-/
namespace Classmith

namespace Hierarchy

/-- Some source knows the class. -/
def Knows (h : Hierarchy) (name : String) : Prop := (h.lookup? name).isSome = true

instance (h : Hierarchy) (name : String) : Decidable (h.Knows name) :=
  inferInstanceAs (Decidable ((h.lookup? name).isSome = true))

theorem knows_of_lookup? {h : Hierarchy} {name : String} {info : ClassInfo}
    (hname : h.lookup? name = some info) : h.Knows name := by
  rw [Knows, hname]
  rfl

def IsInterface (h : Hierarchy) (name : String) : Prop :=
  ∃ info, h.lookup? name = some info ∧ info.isInterface = true

def IsClass (h : Hierarchy) (name : String) : Prop :=
  ∃ info, h.lookup? name = some info ∧ info.isInterface = false

/-- Every class is found under its own name. -/
def Named (h : Hierarchy) : Prop := ∀ name info, h.lookup? name = some info → info.name = name

/-- The class is known and names the other one as its superclass. -/
def Extends (h : Hierarchy) (name above : String) : Prop :=
  ∃ info, h.lookup? name = some info ∧ info.superName = some above

/-- What a verifier expects of the classes it meets. -/
structure WellFormed (h : Hierarchy) : Prop where
  /-- Registered classes are found under their own names. -/
  registered : ∀ name c, h.pool.get? name = some c → c.name = name
  /-- The loader answers with the class asked for. -/
  loaded : ∀ name info, h.loader.find name = some info → info.name = name
  known : ∀ name above, h.DirectlyBelow name above → h.Knows above
  acyclic : ∀ name, ¬Relation.TransGen h.DirectlyBelow name name
  superName : ∀ name info, h.lookup? name = some info → name ≠ ClassInfo.rootName →
    info.superName.isSome = true
  superclass : ∀ name above, h.IsClass name → h.Extends name above → h.IsClass above
  superinterface : ∀ name above, h.IsInterface name → h.Extends name above →
    above = ClassInfo.rootName
  interfaces : ∀ name info, h.lookup? name = some info → ∀ above ∈ info.interfaces,
    h.IsInterface above

theorem Extends.directlyBelow {h : Hierarchy} {name above : String} (hextends : h.Extends name above) :
    h.DirectlyBelow name above := by
  obtain ⟨info, hname, hsuper⟩ := hextends
  exact ⟨info, hname, ClassInfo.mem_supertypes.mpr (Or.inl hsuper)⟩

theorem rightUnique_extends (h : Hierarchy) : Relator.RightUnique h.Extends := by
  rintro name above above' ⟨info, hinfo, hsuper⟩ ⟨info', hinfo', hsuper'⟩
  rw [hinfo] at hinfo'
  cases hinfo'
  exact Option.some.inj (hsuper.symm.trans hsuper')

theorem isClass_root (h : Hierarchy) : h.IsClass ClassInfo.rootName := ⟨.root, h.lookup?_root, rfl⟩

theorem IsClass.knows {h : Hierarchy} {name : String} (hname : h.IsClass name) : h.Knows name := by
  obtain ⟨info, hinfo, -⟩ := hname
  exact knows_of_lookup? hinfo

theorem IsInterface.knows {h : Hierarchy} {name : String} (hname : h.IsInterface name) : h.Knows name := by
  obtain ⟨info, hinfo, -⟩ := hname
  exact knows_of_lookup? hinfo

/-- What lies below a known class is known. -/
theorem Knows.of_below {h : Hierarchy} {name above : String} (habove : h.Knows above)
    (hbelow : h.Below name above) : h.Knows name := by
  rcases Relation.ReflTransGen.cases_head hbelow with rfl | ⟨next, ⟨info, hinfo, -⟩, -⟩
  · exact habove
  · exact knows_of_lookup? hinfo

theorem Knows.isClass_or_isInterface {h : Hierarchy} {name : String} (hname : h.Knows name) :
    h.IsClass name ∨ h.IsInterface name := by
  obtain ⟨info, hinfo⟩ := Option.isSome_iff_exists.mp hname
  cases hkind : info.isInterface with
  | false => exact Or.inl ⟨info, hinfo, hkind⟩
  | true => exact Or.inr ⟨info, hinfo, hkind⟩

theorem IsClass.not_isInterface {h : Hierarchy} {name : String} (hclass : h.IsClass name) :
    ¬h.IsInterface name := by
  rintro ⟨info, hinfo, hkind⟩
  obtain ⟨info', hinfo', hkind'⟩ := hclass
  rw [hinfo] at hinfo'
  cases hinfo'
  rw [hkind] at hkind'
  cases hkind'

theorem not_directlyBelow_root {h : Hierarchy} {above : String} :
    ¬h.DirectlyBelow ClassInfo.rootName above := by
  rintro ⟨info, hinfo, habove⟩
  rw [lookup?_root] at hinfo
  cases hinfo
  simp [ClassInfo.supertypes, ClassInfo.root] at habove

theorem eq_root_of_below {h : Hierarchy} {above : String} (hbelow : h.Below ClassInfo.rootName above) :
    above = ClassInfo.rootName := by
  rcases Relation.ReflTransGen.cases_head hbelow with heq | ⟨next, hnext, -⟩
  · exact heq.symm
  · exact absurd hnext not_directlyBelow_root

theorem below_antisymm {h : Hierarchy} (hacyclic : ∀ name, ¬Relation.TransGen h.DirectlyBelow name name)
    {a b : String} (hab : h.Below a b) (hba : h.Below b a) : a = b := by
  rcases Relation.reflTransGen_iff_eq_or_transGen.mp hab with heq | htrans
  · exact heq.symm
  · exact absurd (htrans.trans_left hba) (hacyclic a)

theorem Named.below_of_implements {h : Hierarchy} (hnamed : h.Named) {name i : String}
    (hi : h.Implements name i) : h.Below name i := by
  obtain ⟨above, info, hbelow, hinfo, ⟨-, hshown⟩ | hlisted⟩ := hi
  · rw [hnamed above info hinfo] at hshown
    rwa [← hshown]
  · exact .tail hbelow ⟨info, hinfo, ClassInfo.mem_supertypes.mpr (Or.inr hlisted)⟩

/-! ## Chains of superclasses -/

/-- Superclasses alone lead from the first name to the second. -/
def Descended (h : Hierarchy) : String → String → Prop := Relation.ReflTransGen h.Extends

theorem Descended.below {h : Hierarchy} {name above : String} (hchain : h.Descended name above) :
    h.Below name above :=
  Relation.ReflTransGen.mono (fun _ _ => Extends.directlyBelow) _ _ hchain

/-- On one chain the one of two names leads to the other. -/
theorem descended_or_descended {h : Hierarchy} {name x y : String} (hx : h.Descended name x)
    (hy : h.Descended name y) : h.Descended x y ∨ h.Descended y x :=
  Relation.ReflTransGen.total_of_right_unique h.rightUnique_extends hx hy

theorem transGen_directlyBelow {h : Hierarchy} {name above : String}
    (hchain : Relation.TransGen h.Extends name above) : Relation.TransGen h.DirectlyBelow name above :=
  Relation.TransGen.mono (fun _ _ => Extends.directlyBelow) _ _ hchain

/-- A walk that may visit all superclasses of a class may, after its step to the next, visit all
superclasses of that one. -/
theorem mem_without_of_extends {h : Hierarchy} {name next : String} {remaining : List String}
    (hall : ∀ above, Relation.TransGen h.Extends name above → above ∈ remaining)
    (hextends : h.Extends name next) (hacyclic : ¬Relation.TransGen h.DirectlyBelow next next)
    (above : String) (hchain : Relation.TransGen h.Extends next above) :
    above ∈ without next remaining := by
  refine mem_without.mpr ⟨hall above (.head hextends hchain), ?_⟩
  rintro rfl
  exact hacyclic (transGen_directlyBelow hchain)

theorem descended_iff {h : Hierarchy} {name : String} {info : ClassInfo}
    (hname : h.lookup? name = some info) {target : String} :
    h.Descended name target ↔
      name = target ∨ ∃ above, info.superName = some above ∧ h.Descended above target := by
  rw [Descended, Relation.ReflTransGen.cases_head_iff]
  refine or_congr_right ⟨?_, ?_⟩
  · rintro ⟨above, ⟨info', hinfo', hsuper⟩, hchain⟩
    rw [hname] at hinfo'
    cases hinfo'
    exact ⟨above, hsuper, hchain⟩
  · rintro ⟨above, hsuper, hchain⟩
    exact ⟨above, ⟨info, hname, hsuper⟩, hchain⟩

/-- The walk from a grounded class ends and tells whether its superclasses lead to the target. -/
theorem climb_of_grounded {h : Hierarchy} (hnamed : h.Named) (target : String) {name : String}
    {remaining : List String} {current : ClassInfo} (hground : h.Grounded name)
    (hname : h.lookup? name = some current)
    (hall : ∀ above, Relation.TransGen h.Extends name above → above ∈ remaining) :
    ∃ b, Plain.climb h target remaining current = .ok b ∧ (b = true ↔ h.Descended name target) := by
  induction remaining using without_induction generalizing name current with
  | step remaining ih =>
    rw [Plain.climb, hnamed name current hname, descended_iff hname]
    by_cases htarget : name = target
    · exact ⟨true, if_pos htarget, by simp [htarget]⟩
    · rw [if_neg htarget]
      cases hsuper : current.superName with
      | none => exact ⟨false, rfl, by simp [htarget]⟩
      | some above =>
        have hextends : h.Extends name above := ⟨current, hname, hsuper⟩
        have hmem : above ∈ remaining := hall above (.single hextends)
        obtain ⟨next, hnext⟩ := Option.isSome_iff_exists.mp
          (hground.known above (.single hextends.directlyBelow))
        have habove : h.Grounded above := hground.of_below (.single hextends.directlyBelow)
        obtain ⟨b, hclimb, hb⟩ := ih above hmem habove hnext
          (mem_without_of_extends hall hextends (habove.acyclic above .refl))
        refine ⟨b, ?_, ?_⟩
        · rw [Option.elim_some, Plain.resolve_eq_ok.mpr hnext]
          change (if _ : above ∈ remaining then _ else _) = _
          rw [dif_pos hmem]
          exact hclimb
        · rw [hb]
          simp [htarget]

namespace WellFormed

variable {h : Hierarchy} (hwf : h.WellFormed)

include hwf

theorem named : h.Named := by
  intro name info hname
  unfold lookup? at hname
  split at hname
  · rename_i hroot
    cases hname
    exact hroot.symm
  · rcases Option.or_eq_some_iff.mp hname with hpool | ⟨-, hloader⟩
    · obtain ⟨c, hc, rfl⟩ := Option.map_eq_some_iff.mp hpool
      exact hwf.registered name c hc
    · exact hwf.loaded name info hloader

theorem knows_of_below {name above : String} (hname : h.Knows name) (hbelow : h.Below name above) :
    h.Knows above := by
  induction hbelow with
  | refl => exact hname
  | tail _ hstep _ => exact hwf.known _ _ hstep

theorem grounded {name : String} (hname : h.Knows name) : h.Grounded name where
  known _ hbelow := hwf.knows_of_below hname hbelow
  acyclic above _ := hwf.acyclic above

theorem isClass_of_extends {name above : String} (hextends : h.Extends name above) :
    h.IsClass above := by
  have hname : h.Knows name := by
    obtain ⟨info, hinfo, -⟩ := hextends
    exact knows_of_lookup? hinfo
  rcases hname.isClass_or_isInterface with hclass | hinterface
  · exact hwf.superclass name above hclass hextends
  · rw [hwf.superinterface name above hinterface hextends]
    exact h.isClass_root

/-- Every chain of superclasses ends at the root. -/
theorem descended_root {name : String} (hname : h.Knows name) :
    h.Descended name ClassInfo.rootName := by
  suffices hall : ∀ remaining : List String, ∀ name, h.Knows name →
      (∀ above, h.Below name above → above ∈ remaining) → h.Descended name ClassInfo.rootName from
    hall h.names name hname fun above hbelow =>
      mem_names_of_lookup? (hwf.knows_of_below hname hbelow)
  intro remaining
  induction remaining using without_induction with
  | step remaining ih =>
    intro name hname hall
    by_cases hroot : name = ClassInfo.rootName
    · subst hroot
      exact .refl
    · obtain ⟨info, hinfo⟩ := Option.isSome_iff_exists.mp hname
      obtain ⟨above, hsuper⟩ := Option.isSome_iff_exists.mp (hwf.superName name info hinfo hroot)
      have hextends : h.Extends name above := ⟨info, hinfo, hsuper⟩
      refine .head hextends (ih name (hall name .refl) above ?_ ?_)
      · exact (hwf.isClass_of_extends hextends).knows
      · intro top htop
        refine mem_without.mpr ⟨hall top (.head hextends.directlyBelow htop), ?_⟩
        rintro rfl
        exact (hwf.grounded hname).not_below hextends.directlyBelow htop

/-- Only superclasses lead to a class. Interfaces lead to no class but the root, and superclasses lead
there too. -/
theorem below_class_iff {name target : String} (hname : h.Knows name) (htarget : h.IsClass target) :
    h.Below name target ↔ h.Descended name target := by
  refine ⟨fun hbelow => ?_, fun hchain => hchain.below⟩
  induction hbelow using Relation.ReflTransGen.head_induction_on with
  | refl => exact .refl
  | @head name next hstep _ ih =>
    have hchain : h.Descended next target := ih (hwf.known _ _ hstep)
    obtain ⟨info, hinfo, hsuper⟩ := hstep
    rcases ClassInfo.mem_supertypes.mp hsuper with hsuper | hlisted
    · exact .head ⟨info, hinfo, hsuper⟩ hchain
    · have hinterface : h.IsInterface next := hwf.interfaces name info hinfo next hlisted
      have hroot : target = ClassInfo.rootName := by
        rcases Relation.ReflTransGen.cases_head hchain with heq | ⟨above, hextends, hrest⟩
        · subst heq
          exact absurd hinterface htarget.not_isInterface
        · rw [hwf.superinterface next above hinterface hextends] at hrest
          exact eq_root_of_below (Descended.below hrest)
      rw [hroot]
      exact hwf.descended_root hname

theorem below_root {name : String} (hname : h.Knows name) : h.Below name ClassInfo.rootName :=
  (hwf.descended_root hname).below

theorem below_antisymm {a b : String} (hab : h.Below a b) (hba : h.Below b a) : a = b :=
  Hierarchy.below_antisymm hwf.acyclic hab hba

/-- An interface is in the closure of exactly the classes below it. -/
theorem implements_iff_below {name i : String} (hi : h.IsInterface i) :
    h.Implements name i ↔ h.Below name i := by
  obtain ⟨info, hinfo, hkind⟩ := hi
  refine ⟨hwf.named.below_of_implements, fun hbelow => ?_⟩
  exact ⟨i, info, hbelow, hinfo, Or.inl ⟨hkind, hwf.named i info hinfo⟩⟩

/-- Both ways of finding out decide whether the second class lies below the first. -/
theorem isSubtype_spec {super sub : String} (hsuper : h.Knows super) (hsub : h.Knows sub) :
    ∃ b, Plain.isSubtype h super sub = .ok b ∧ (b = true ↔ h.Below sub super) := by
  obtain ⟨target, htarget⟩ := Option.isSome_iff_exists.mp hsuper
  obtain ⟨start, hstart⟩ := Option.isSome_iff_exists.mp hsub
  have hnames : ∀ above, h.Below sub above → above ∈ h.names := fun above hbelow =>
    mem_names_of_lookup? (hwf.knows_of_below hsub hbelow)
  rw [Plain.isSubtype, Plain.resolve_eq_ok.mpr htarget]
  cases hkind : target.isInterface with
  | true =>
    obtain ⟨s, hs⟩ := Plain.exists_collect (hwf.grounded hsub) hnames
    obtain ⟨-, -, hcontains⟩ := Plain.collect_ok hs
    refine ⟨s.contains super, ?_, ?_⟩
    · change (if target.isInterface = true then _ else _) = _
      rw [if_pos hkind, hs, ← hwf.named super target htarget]
      rfl
    · rw [hcontains, hwf.implements_iff_below ⟨target, htarget, hkind⟩]
  | false =>
    obtain ⟨b, hclimb, hb⟩ := climb_of_grounded hwf.named super (hwf.grounded hsub) hstart
      fun above hchain => hnames above (transGen_directlyBelow hchain).to_reflTransGen
    refine ⟨b, ?_, ?_⟩
    · change (if target.isInterface = true then _ else _) = _
      rw [hkind, if_neg Bool.false_ne_true, Plain.resolve_eq_ok.mpr hstart,
        hwf.named super target htarget]
      exact hclimb
    · rw [hb, hwf.below_class_iff hsub ⟨target, htarget, hkind⟩]

end WellFormed

/-- Whatever was asked before, a resolver says that values of the second class can be assigned to the
first. -/
def Assignable (h : Hierarchy) (super sub : String) : Prop :=
  ∀ earlier, h.answerAfter earlier (h.isSubtype super sub) = .ok true

theorem WellFormed.assignable_iff {h : Hierarchy} (hwf : h.WellFormed) {super sub : String}
    (hsuper : h.Knows super) (hsub : h.Knows sub) : h.Assignable super sub ↔ h.Below sub super := by
  obtain ⟨b, hanswer, hb⟩ := hwf.isSubtype_spec hsuper hsub
  rw [← hb]
  constructor
  · intro hassignable
    have hnow := hassignable []
    rw [(answers_isSubtype super sub).answerAfter, hanswer] at hnow
    exact Except.ok.inj hnow
  · rintro rfl earlier
    rw [(answers_isSubtype super sub).answerAfter, hanswer]

/-- In a well-formed hierarchy the subtype query succeeds on known classes and tells whether the second is
below the first. Hence it is a partial order, with the root above every class and below none but itself. -/
theorem isSubtype_decides_below {h : Hierarchy} (hwf : h.WellFormed) :
    (∀ super sub, h.Knows super → h.Knows sub → ∀ earlier, ∃ b,
      h.answerAfter earlier (h.isSubtype super sub) = .ok b ∧ (b = true ↔ h.Below sub super)) ∧
    (∀ a, h.Knows a → h.Assignable a a) ∧
    (∀ a b, h.Knows a → h.Knows b → h.Assignable a b → h.Assignable b a → a = b) ∧
    (∀ a b c, h.Knows a → h.Knows b → h.Knows c → h.Assignable a b → h.Assignable b c →
      h.Assignable a c) ∧
    (∀ a, h.Knows a → h.Assignable ClassInfo.rootName a) ∧
    (∀ a, h.Knows a → (h.Assignable a ClassInfo.rootName ↔ a = ClassInfo.rootName)) := by
  have hroot : h.Knows ClassInfo.rootName := h.isClass_root.knows
  refine ⟨?_, ?_, ?_, ?_, ?_, ?_⟩
  · intro super sub hsuper hsub earlier
    rw [(answers_isSubtype super sub).answerAfter]
    exact hwf.isSubtype_spec hsuper hsub
  · intro a ha
    exact (hwf.assignable_iff ha ha).mpr .refl
  · intro a b ha hb hab hba
    rw [hwf.assignable_iff ha hb] at hab
    rw [hwf.assignable_iff hb ha] at hba
    exact hwf.below_antisymm hba hab
  · intro a b c ha hb hc hab hbc
    rw [hwf.assignable_iff ha hb] at hab
    rw [hwf.assignable_iff hb hc] at hbc
    exact (hwf.assignable_iff ha hc).mpr (hbc.trans hab)
  · intro a ha
    exact (hwf.assignable_iff hroot ha).mpr (hwf.below_root ha)
  · intro a ha
    rw [hwf.assignable_iff ha hroot]
    constructor
    · exact eq_root_of_below
    · rintro rfl
      exact .refl

/-! ## Checking a hierarchy

Supertypes that stand before their subtypes in some list leave no room for a cycle, so a hierarchy with
such a list can be checked name by name. -/

/-- The class has the name it is found under, its supertypes are known and come before it in the order,
and they are of the kind that their place asks for. -/
def isSettled (h : Hierarchy) (order : List String) (name : String) (info : ClassInfo) : Bool :=
  info.name == name && (name == ClassInfo.rootName || info.superName.isSome) &&
  info.supertypes.all (fun above =>
    (h.lookup? above).isSome && decide (order.idxOf above < order.idxOf name)) &&
  info.superName.all (fun above =>
    if info.isInterface then above == ClassInfo.rootName
    else (h.lookup? above).any fun top => !top.isInterface) &&
  info.interfaces.all fun above => (h.lookup? above).any fun top => top.isInterface

/-- Whether every class that a source knows is settled. -/
def isOrdered (h : Hierarchy) (order : List String) : Bool :=
  h.pool.index.keys.all (fun name => (h.pool.get? name).all fun c => c.name == name) &&
  h.loader.domain.all (fun name => (h.loader.find name).all fun info => info.name == name) &&
  h.names.all fun name => (h.lookup? name).all (h.isSettled order name)

section Ordered

variable {h : Hierarchy} {order : List String} (hordered : h.isOrdered order = true)

include hordered

theorem isSettled_of_isOrdered {name : String} {info : ClassInfo} (hname : h.lookup? name = some info) :
    h.isSettled order name info = true := by
  simp only [isOrdered, Bool.and_eq_true, List.all_eq_true] at hordered
  have hsettled := hordered.2 name (mem_names_of_lookup? (knows_of_lookup? hname))
  rwa [hname] at hsettled

theorem idxOf_lt_of_directlyBelow {name above : String} (hbelow : h.DirectlyBelow name above) :
    order.idxOf above < order.idxOf name := by
  obtain ⟨info, hname, habove⟩ := hbelow
  have hsettled := isSettled_of_isOrdered hordered hname
  simp only [isSettled, Bool.and_eq_true, List.all_eq_true, decide_eq_true_eq] at hsettled
  exact (hsettled.1.1.2 above habove).2

/-- What lies above a class comes before it. -/
theorem idxOf_lt_of_transGen {name above : String}
    (hbelow : Relation.TransGen h.DirectlyBelow name above) : order.idxOf above < order.idxOf name := by
  induction hbelow with
  | single hstep => exact idxOf_lt_of_directlyBelow hordered hstep
  | tail _ hstep ih => exact Nat.lt_trans (idxOf_lt_of_directlyBelow hordered hstep) ih

theorem wellFormed_of_isOrdered : h.WellFormed where
  registered name c hc := by
    simp only [isOrdered, Bool.and_eq_true, List.all_eq_true] at hordered
    have hkey : name ∈ h.pool.index.keys :=
      (Loader.ofPool h.pool).mem_domain name (by simp [Loader.ofPool, hc])
    have hnamed := hordered.1.1 name hkey
    rw [hc] at hnamed
    exact beq_iff_eq.mp hnamed
  loaded name info hinfo := by
    simp only [isOrdered, Bool.and_eq_true, List.all_eq_true] at hordered
    have hnamed := hordered.1.2 name (h.loader.mem_domain name (by rw [hinfo]; rfl))
    rw [hinfo] at hnamed
    exact beq_iff_eq.mp hnamed
  known name above hbelow := by
    obtain ⟨info, hname, habove⟩ := hbelow
    have hsettled := isSettled_of_isOrdered hordered hname
    simp only [isSettled, Bool.and_eq_true, List.all_eq_true] at hsettled
    exact (hsettled.1.1.2 above habove).1
  acyclic name hcycle := Nat.lt_irrefl _ (idxOf_lt_of_transGen hordered hcycle)
  superName name info hname hroot := by
    have hsettled := isSettled_of_isOrdered hordered hname
    simp only [isSettled, Bool.and_eq_true, Bool.or_eq_true, beq_iff_eq] at hsettled
    exact hsettled.1.1.1.2.resolve_left hroot
  superclass name above hclass hextends := by
    obtain ⟨info, hname, hsuper⟩ := hextends
    obtain ⟨info', hname', hkind⟩ := hclass
    rw [hname] at hname'
    cases hname'
    have hsettled := isSettled_of_isOrdered hordered hname
    simp only [isSettled, Bool.and_eq_true, hsuper, hkind, Option.all_some] at hsettled
    obtain ⟨top, htop, hclass⟩ := (Option.any_eq_true _ _).mp hsettled.1.2
    exact ⟨top, htop, by simpa using hclass⟩
  superinterface name above hinterface hextends := by
    obtain ⟨info, hname, hsuper⟩ := hextends
    obtain ⟨info', hname', hkind⟩ := hinterface
    rw [hname] at hname'
    cases hname'
    have hsettled := isSettled_of_isOrdered hordered hname
    simp only [isSettled, Bool.and_eq_true, hsuper, hkind, Option.all_some] at hsettled
    simpa using hsettled.1.2
  interfaces name info hname above habove := by
    have hsettled := isSettled_of_isOrdered hordered hname
    simp only [isSettled, Bool.and_eq_true, List.all_eq_true] at hsettled
    exact (Option.any_eq_true _ _).mp (hsettled.2 above habove)

end Ordered

end Hierarchy

namespace Samples

/-- A class with an interface of its superclass and one that extends it. -/
def family : Hierarchy where
  pool := (Pool.ofClasses [
    { name := "p/Shape", access := 0x0601, superName := some "java/lang/Object" },
    { name := "p/Solid", access := 0x0601, superName := some "java/lang/Object",
      interfaces := ["p/Shape"] },
    { name := "p/Base", superName := some "java/lang/Object", interfaces := ["p/Shape"] },
    { name := "p/Round", superName := some "p/Base" },
    { name := "p/Ball", superName := some "p/Round", interfaces := ["p/Solid", "java/lang/Runnable"] },
    { name := "p/Flat", superName := some "p/Base" }]).toOption.getD Pool.empty
  loader := Loader.ofInfos [Platform.interfaceInfo "java/lang/Runnable" []]

def familyOrder : List String := ["java/lang/Object", "p/Shape", "p/Base", "p/Round", "p/Flat",
  "p/Solid", "java/lang/Runnable", "p/Ball"]

theorem isOrdered_family : family.isOrdered familyOrder = true := by decide +kernel

end Samples

open Samples in
theorem isSubtype_decides_below_family : family.WellFormed ∧ family.Assignable "p/Shape" "p/Ball" ∧
    family.answerAfter [.allInterfaces "p/Ball"] (family.isSubtype "p/Solid" "p/Round") = .ok false ∧
    ¬family.Assignable "p/Ball" ClassInfo.rootName := by
  have hwf : family.WellFormed := Hierarchy.wellFormed_of_isOrdered isOrdered_family
  obtain ⟨hdecides, -, -, -, -, hroot⟩ := Hierarchy.isSubtype_decides_below hwf
  refine ⟨hwf, ?_, ?_, ?_⟩
  · intro earlier
    have hbelow : family.Below "p/Ball" "p/Shape" :=
      .tail (.single (b := "p/Solid") (by decide +kernel)) (by decide +kernel)
    obtain ⟨b, hanswer, hb⟩ := hdecides "p/Shape" "p/Ball" (by decide +kernel) (by decide +kernel) earlier
    rw [hanswer, hb.mpr hbelow]
  · have hnot : ¬family.Below "p/Round" "p/Solid" := by
      intro hbelow
      rcases Relation.reflTransGen_iff_eq_or_transGen.mp hbelow with heq | hstrictly
      · exact absurd heq (by decide)
      · exact absurd (Hierarchy.idxOf_lt_of_transGen isOrdered_family hstrictly) (by decide +kernel)
    obtain ⟨b, hanswer, hb⟩ := hdecides "p/Solid" "p/Round" (by decide +kernel) (by decide +kernel)
      [.allInterfaces "p/Ball"]
    rw [hanswer, Bool.eq_false_iff.mpr fun hb' => hnot (hb.mp hb')]
  · rw [hroot "p/Ball" (by decide +kernel)]
    decide

end Classmith
