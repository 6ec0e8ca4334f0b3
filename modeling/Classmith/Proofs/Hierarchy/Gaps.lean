import Classmith.Proofs.Hierarchy.Chains

/-!
# Hierarchies with gaps

A class may name supertypes that no source knows. Where the known classes are put together as a verifier
expects it, the order of two classes makes a difference to their common superclass in one case only: the one
is a superclass of the other, and the chain above it leads to a name that is missing. With the upper class
first it is found at once. With the lower class first the search begins above the upper class and fails at
the gap.
-/
namespace Classmith

namespace Hierarchy

variable {h : Hierarchy}

/-- What a verifier expects of the classes that are known; supertypes that they name may be missing. -/
structure Consistent (h : Hierarchy) : Prop where
  named : h.Named
  acyclic : ∀ name, ¬Relation.TransGen h.DirectlyBelow name name
  superName : ∀ name info, h.lookup? name = some info → name ≠ ClassInfo.rootName →
    info.superName.isSome = true
  superclass : ∀ name above, h.IsClass name → h.Extends name above → h.Knows above → h.IsClass above
  superinterface : ∀ name above, h.IsInterface name → h.Extends name above →
    above = ClassInfo.rootName
  interfaces : ∀ name info, h.lookup? name = some info → ∀ above ∈ info.interfaces, h.Knows above →
    h.IsInterface above

/-- The chain of superclasses comes to the root. -/
def Rooted (h : Hierarchy) (name : String) : Prop := h.Descended name ClassInfo.rootName

/-- The chain of superclasses comes to a name that no source knows. -/
def Lost (h : Hierarchy) (name missing : String) : Prop :=
  h.Descended name missing ∧ h.lookup? missing = none

/-- Superclasses lead from the first class up to another one that is known, and from there into a gap. -/
structure Severed (h : Hierarchy) (lower upper : String) : Prop where
  ne : lower ≠ upper
  chain : h.Descended lower upper
  knows : h.Knows upper
  lost : ∃ missing, h.Lost upper missing

theorem Rooted.not_lost {name missing : String} (hrooted : h.Rooted name) : ¬h.Lost name missing := by
  rintro ⟨hchain, hmissing⟩
  rw [h.isEnd_root.unique (isEnd_of_unknown hmissing) hrooted hchain, lookup?_root] at hmissing
  cases hmissing

/-- What lies on a chain to the root is known. -/
theorem Rooted.knows {name above : String} (hrooted : h.Rooted name) (hchain : h.Descended name above) :
    h.Knows above :=
  h.isClass_root.knows.of_below (h.isEnd_root.descended hrooted hchain).below

theorem Rooted.mem_names {name above : String} (hrooted : h.Rooted name) (hchain : h.Descended name above) :
    above ∈ h.names :=
  mem_names_of_lookup? (hrooted.knows hchain)

theorem Rooted.step {name : String} (hrooted : h.Rooted name) (hne : name ≠ ClassInfo.rootName) :
    ∃ above next, h.Extends name above ∧ h.lookup? above = some next ∧ h.Rooted above := by
  rcases Relation.ReflTransGen.cases_head hrooted with heq | ⟨above, hextends, hrest⟩
  · exact absurd heq hne
  · obtain ⟨next, hnext⟩ := Option.isSome_iff_exists.mp (hrooted.knows (.single hextends))
    exact ⟨above, next, hextends, hnext, hrest⟩

/-- The merge of two classes whose chains come to the root: the first class that both chains have. -/
structure Joins (h : Hierarchy) (a b r : String) : Prop where
  left : h.Descended a r
  right : h.Descended b r
  least : ∀ s, h.Descended a s → h.Descended b s → h.Descended r s

/-- The second class is not on the chain of the first, so every class on both chains is on that of its
superclass. -/
theorem Joins.of_extends {a b next r : String} (hr : h.Joins a next r) (hab : ¬h.Descended a b)
    (hextends : h.Extends b next) : h.Joins a b r where
  left := hr.left
  right := .head hextends hr.right
  least s has hbs := by
    rcases hextends.descended_iff.mp hbs with rfl | hchain
    · exact absurd has hab
    · exact hr.least s has hchain

/-- A query for an interface answers exactly if everything above the class is known. -/
theorem exists_isSubtype_iff {i sub : String} (hi : h.IsInterface i) :
    (∃ b, Plain.isSubtype h i sub = .ok b) ↔ h.Grounded sub := by
  obtain ⟨target, htarget, hkind⟩ := hi
  rw [Plain.isSubtype, Plain.resolve_eq_ok.mpr htarget, ← exists_collect_iff]
  change (∃ b, (if target.isInterface = true then _ else _) = Except.ok b) ↔ _
  rw [if_pos hkind]
  cases Plain.collect h h.names sub with
  | error e =>
    refine ⟨?_, ?_⟩ <;>
    · rintro ⟨_, hok⟩
      cases hok
  | ok s => exact ⟨fun _ => ⟨s, rfl⟩, fun _ => ⟨_, rfl⟩⟩

namespace Consistent

variable (hcons : h.Consistent)

include hcons

theorem not_cycle (name : String) : ¬Relation.TransGen h.Extends name name := fun hcycle =>
  hcons.acyclic name (transGen_directlyBelow hcycle)

theorem rooted_or_lost (name : String) : h.Rooted name ∨ ∃ missing, h.Lost name missing := by
  have houtcome := outcome_isSubtype hcons.named h.isClass_root name
  generalize Plain.isSubtype h ClassInfo.rootName name = answer at houtcome
  cases houtcome with
  | met hchain => exact Or.inl hchain
  | @topped top info hmissed hchain hknown hlast =>
    by_cases hroot : top = ClassInfo.rootName
    · subst hroot
      exact Or.inl hchain
    · have hsuper := hcons.superName top info hknown hroot
      rw [hlast] at hsuper
      cases hsuper
  | @lost missing _ hchain hunknown => exact Or.inr ⟨missing, hchain, hunknown⟩
  | turned _ _ hcycle => exact absurd hcycle (hcons.not_cycle _)

/-- Above an interface stands the root. -/
theorem eq_or_eq_root {i above : String} (hi : h.IsInterface i) (hchain : h.Descended i above) :
    above = i ∨ above = ClassInfo.rootName := by
  rcases Relation.ReflTransGen.cases_head hchain with heq | ⟨next, hextends, hrest⟩
  · exact Or.inl heq.symm
  · rw [hcons.superinterface i next hi hextends] at hrest
    exact Or.inr (h.isEnd_root.eq_of_descended hrest)

theorem isClass_of_lost {name missing : String} (hname : h.Knows name) (hlost : h.Lost name missing) :
    h.IsClass name := by
  rcases hname.isClass_or_isInterface with hclass | hinterface
  · exact hclass
  · obtain ⟨hchain, hmissing⟩ := hlost
    rcases hcons.eq_or_eq_root hinterface hchain with rfl | rfl
    · rw [Knows, hmissing] at hname
      cases hname
    · rw [lookup?_root] at hmissing
      cases hmissing

theorem rooted_of_isInterface {i : String} (hi : h.IsInterface i) : h.Rooted i := by
  rcases hcons.rooted_or_lost i with hrooted | ⟨missing, hlost⟩
  · exact hrooted
  · exact absurd hi (hcons.isClass_of_lost hi.knows hlost).not_isInterface

/-! ## Subtype queries -/

section Classes

variable {super sub : String} (hsuper : h.IsClass super)

include hsuper

theorem isSubtype_of_descended (hchain : h.Descended sub super) :
    Plain.isSubtype h super sub = .ok true :=
  (outcome_isSubtype hcons.named hsuper sub).eq_true_iff.mpr hchain

theorem isSubtype_of_rooted (hrooted : h.Rooted sub) (hmissed : ¬h.Descended sub super) :
    Plain.isSubtype h super sub = .ok false :=
  (outcome_isSubtype hcons.named hsuper sub).eq_false_iff.mpr
    ⟨hmissed, ClassInfo.rootName, .root, hrooted, h.lookup?_root, rfl⟩

theorem isSubtype_of_lost {missing : String} (hlost : h.Lost sub missing) (hmissed : ¬h.Descended sub super) :
    Plain.isSubtype h super sub = .error (.unresolved missing) :=
  ((outcome_isSubtype hcons.named hsuper sub).eq_unresolved_iff missing).mpr ⟨hmissed, hlost⟩

end Classes

theorem below_of_isSubtype {i sub : String} (hi : h.IsInterface i)
    (htrue : Plain.isSubtype h i sub = .ok true) : h.Below sub i := by
  obtain ⟨target, htarget, hkind⟩ := hi
  rw [Plain.isSubtype, Plain.resolve_eq_ok.mpr htarget] at htrue
  change (if target.isInterface = true then _ else _) = Except.ok true at htrue
  rw [if_pos hkind, hcons.named i target htarget] at htrue
  cases hs : Plain.collect h h.names sub with
  | error e =>
    rw [hs] at htrue
    cases htrue
  | ok s =>
    rw [hs] at htrue
    exact hcons.named.below_of_implements (((Plain.collect_ok hs).2.2 i).mp (Except.ok.inj htrue))

end Consistent

/-! ## With an interface among the two -/

/-- Two tests one after the other, of which each answers where the other says yes, come to the same in either
order. -/
theorem toOption_tests_comm {α : Type} {p q : Except Error Bool} {a b r : α}
    (hp : p = .ok true → ∃ s, q = .ok s) (hq : q = .ok true → ∃ s, p = .ok s)
    (hboth : p = .ok true → q = .ok true → a = b) :
    (do if ← p then return a else if ← q then return b else return r : Except Error α).toOption =
      (do if ← q then return b else if ← p then return a else return r : Except Error α).toOption := by
  rcases p with e | (_ | _) <;> rcases q with e' | (_ | _)
  case error.ok.true => obtain ⟨s, hs⟩ := hq rfl; cases hs
  case ok.true.error => obtain ⟨s, hs⟩ := hp rfl; cases hs
  case ok.true.ok.true => rw [hboth rfl rfl]
  all_goals rfl

theorem meet_of_interface {a b : ClassInfo} (remaining : List String) (ha : a.name ≠ ClassInfo.rootName)
    (hb : b.name ≠ ClassInfo.rootName) (hkind : (a.isInterface || b.isInterface) = true) :
    Plain.meet h a remaining b = do
      if ← Plain.isSubtype h a.name b.name then return a
      else if ← Plain.isSubtype h b.name a.name then return b
      else return .root := by
  rw [Plain.meet, if_neg ha, if_neg hb]
  refine bind_congr fun below => ?_
  cases below with
  | true => rfl
  | false =>
    refine bind_congr fun above => ?_
    cases above with
    | true => rfl
    | false =>
      change (if (a.isInterface || b.isInterface) = true then _ else _) = _
      rw [if_pos hkind, Plain.resolve_eq_ok.mpr h.lookup?_root]
      rfl

namespace Consistent

variable (hcons : h.Consistent)

include hcons

theorem toOption_meet_interface {a b : ClassInfo} (ha : h.lookup? a.name = some a)
    (hb : h.lookup? b.name = some b) (haroot : a.name ≠ ClassInfo.rootName)
    (hbroot : b.name ≠ ClassInfo.rootName) (hkind : a.isInterface = true) :
    (Plain.meet h a h.names b).toOption = (Plain.meet h b h.names a).toOption := by
  have hia : h.IsInterface a.name := ⟨a, ha, hkind⟩
  rw [meet_of_interface h.names haroot hbroot (by simp [hkind]),
    meet_of_interface h.names hbroot haroot (by simp [hkind])]
  cases hkind' : b.isInterface with
  | false =>
    have hclass : h.IsClass b.name := ⟨b, hb, hkind'⟩
    have hmissed : ¬h.Descended a.name b.name := by
      intro hchain
      rcases hcons.eq_or_eq_root hia hchain with heq | heq
      · exact hclass.not_isInterface (heq ▸ hia)
      · exact hbroot heq
    have hfalse := hcons.isSubtype_of_rooted hclass (hcons.rooted_of_isInterface hia) hmissed
    refine toOption_tests_comm (fun _ => ⟨false, hfalse⟩) ?_ ?_
    · intro htrue
      rw [hfalse] at htrue
      cases htrue
    · intro _ htrue
      rw [hfalse] at htrue
      cases htrue
  | true =>
    have hib : h.IsInterface b.name := ⟨b, hb, hkind'⟩
    -- what lies above the lower one is known, and with it what lies above the upper one
    have hanswers : ∀ {i j}, h.IsInterface i → h.IsInterface j →
        Plain.isSubtype h i j = .ok true → ∃ s, Plain.isSubtype h j i = .ok s := by
      intro i j hi hj htrue
      have hground : h.Grounded j := (exists_isSubtype_iff hi).mp ⟨true, htrue⟩
      exact (exists_isSubtype_iff hj).mpr (hground.of_below (hcons.below_of_isSubtype hi htrue))
    refine toOption_tests_comm (hanswers hia hib) (hanswers hib hia) fun hab hba => ?_
    have hname := below_antisymm hcons.acyclic (hcons.below_of_isSubtype hib hba)
      (hcons.below_of_isSubtype hia hab)
    rw [hname, hb] at ha
    exact (Option.some.inj ha).symm

/-! ## Of two classes -/

/-- Two classes whose chains come to the root have a merge, and the search finds it. -/
theorem meet_joins {a b : ClassInfo} {remaining : List String} (ha : h.lookup? a.name = some a)
    (hb : h.lookup? b.name = some b) (hclassA : a.isInterface = false) (hclassB : b.isInterface = false)
    (hrootedA : h.Rooted a.name) (hrootedB : h.Rooted b.name)
    (hall : ∀ above, Relation.TransGen h.Extends b.name above → above ∈ remaining) :
    ∃ r, Plain.meet h a remaining b = .ok r ∧ h.lookup? r.name = some r ∧ h.Joins a.name b.name r.name := by
  induction remaining using without_induction generalizing b with
  | step remaining ih =>
    have hisA : h.IsClass a.name := ⟨a, ha, hclassA⟩
    have hisB : h.IsClass b.name := ⟨b, hb, hclassB⟩
    rw [Plain.meet]
    by_cases hba : h.Descended b.name a.name
    · refine ⟨a, ?_, ha, ⟨.refl, hba, fun s hs _ => hs⟩⟩
      by_cases haroot : a.name = ClassInfo.rootName
      · exact if_pos haroot
      rw [if_neg haroot]
      by_cases hbroot : b.name = ClassInfo.rootName
      · rw [hbroot] at hba
        exact absurd (h.isEnd_root.eq_of_descended hba) haroot
      rw [if_neg hbroot, hcons.isSubtype_of_descended hisA hba]
      rfl
    have haroot : a.name ≠ ClassInfo.rootName := fun hroot => hba (hroot ▸ hrootedB)
    have hdown := hcons.isSubtype_of_rooted hisA hrootedB hba
    rw [if_neg haroot]
    by_cases hab : h.Descended a.name b.name
    · refine ⟨b, ?_, hb, ⟨hab, .refl, fun s _ hs => hs⟩⟩
      by_cases hbroot : b.name = ClassInfo.rootName
      · exact if_pos hbroot
      rw [if_neg hbroot, hdown, hcons.isSubtype_of_descended hisB hab]
      rfl
    · have hbroot : b.name ≠ ClassInfo.rootName := fun hroot => hab (hroot ▸ hrootedA)
      obtain ⟨above, next, ⟨info, hinfo, hsuper⟩, hnext, hrooted⟩ := hrootedB.step hbroot
      obtain rfl : b = info := Option.some.inj (hb.symm.trans hinfo)
      obtain rfl : next.name = above := hcons.named above next hnext
      have hextends : h.Extends b.name next.name := ⟨b, hb, hsuper⟩
      have hmem : next.name ∈ remaining := hall next.name (.single hextends)
      obtain ⟨info, hinfo, hkind⟩ := hcons.superclass _ _ hisB hextends (knows_of_lookup? hnext)
      obtain rfl : next = info := Option.some.inj (hnext.symm.trans hinfo)
      obtain ⟨r, hr, hlookup, hjoins⟩ := ih next.name hmem hnext hkind hrooted
        (mem_without_of_extends hall hextends (hcons.acyclic next.name))
      refine ⟨r, ?_, hlookup, hjoins.of_extends hab hextends⟩
      rw [if_neg hbroot, hdown, hcons.isSubtype_of_rooted hisB hrootedA hab]
      change (if (a.isInterface || b.isInterface) = true then _ else _) = _
      rw [hclassA, hclassB, Bool.or_false, if_neg Bool.false_ne_true, hsuper, Option.getD_some,
        Plain.resolve_eq_ok.mpr hnext]
      exact (dif_pos hmem).trans hr

/-- Classes that are not on one chain have no merge if a chain leads into a gap. -/
theorem exists_error_meet {a b : ClassInfo} (remaining : List String) (haroot : a.name ≠ ClassInfo.rootName)
    (hbroot : b.name ≠ ClassInfo.rootName) (hisA : h.IsClass a.name) (hisB : h.IsClass b.name)
    (hab : ¬h.Descended a.name b.name) (hba : ¬h.Descended b.name a.name)
    (hgap : ¬(h.Rooted a.name ∧ h.Rooted b.name)) : ∃ e, Plain.meet h a remaining b = .error e := by
  rw [Plain.meet, if_neg haroot, if_neg hbroot]
  rcases hcons.rooted_or_lost b.name with hrooted | ⟨missing, hlost⟩
  · obtain ⟨missing, hlost⟩ := (hcons.rooted_or_lost a.name).resolve_left fun ha => hgap ⟨ha, hrooted⟩
    rw [hcons.isSubtype_of_rooted hisA hrooted hba, hcons.isSubtype_of_lost hisB hlost hab]
    exact ⟨_, rfl⟩
  · rw [hcons.isSubtype_of_lost hisA hlost hba]
    exact ⟨_, rfl⟩

theorem toOption_meet_class {a b : ClassInfo} (ha : h.lookup? a.name = some a)
    (hb : h.lookup? b.name = some b) (haroot : a.name ≠ ClassInfo.rootName)
    (hbroot : b.name ≠ ClassInfo.rootName)
    (hclassA : a.isInterface = false) (hclassB : b.isInterface = false)
    (hab : ¬h.Severed a.name b.name) (hba : ¬h.Severed b.name a.name) (hne : a.name ≠ b.name) :
    (Plain.meet h a h.names b).toOption = (Plain.meet h b h.names a).toOption := by
  have hisA : h.IsClass a.name := ⟨a, ha, hclassA⟩
  have hisB : h.IsClass b.name := ⟨b, hb, hclassB⟩
  by_cases hrooted : h.Rooted a.name ∧ h.Rooted b.name
  · obtain ⟨r, hr, hlookup, hjoins⟩ := hcons.meet_joins ha hb hclassA hclassB hrooted.1 hrooted.2
      fun _ hchain => hrooted.2.mem_names hchain.to_reflTransGen
    obtain ⟨s, hs, hlookup', hjoins'⟩ := hcons.meet_joins hb ha hclassB hclassA hrooted.2 hrooted.1
      fun _ hchain => hrooted.1.mem_names hchain.to_reflTransGen
    have hname : r.name = s.name := below_antisymm hcons.acyclic
      (hjoins.least s.name hjoins'.right hjoins'.left).below
      (hjoins'.least r.name hjoins.right hjoins.left).below
    rw [hname, hlookup'] at hlookup
    rw [hr, hs, Option.some.inj hlookup]
  · -- if one class were above the other, the gap would be above both
    have hapart : ∀ {x y}, ¬(h.Rooted x ∧ h.Rooted y) → ¬h.Severed x y → x ≠ y → h.Knows y →
        ¬h.Descended x y := by
      intro x y hgap hnot hxy hy hchain
      rcases hcons.rooted_or_lost y with hrooted | hlost
      · exact hgap ⟨hchain.trans hrooted, hrooted⟩
      · exact hnot ⟨hxy, hchain, hy, hlost⟩
    have hgap' : ¬(h.Rooted b.name ∧ h.Rooted a.name) := fun hboth => hrooted hboth.symm
    have hup := hapart hrooted hab hne hisB.knows
    have hdown := hapart hgap' hba hne.symm hisA.knows
    obtain ⟨e, he⟩ := hcons.exists_error_meet h.names haroot hbroot hisA hisB hup hdown hrooted
    obtain ⟨e', he'⟩ := hcons.exists_error_meet h.names hbroot haroot hisB hisA hdown hup hgap'
    rw [he, he']
    rfl

end Consistent

/-! ## The query -/

theorem commonSuperclass_of_lookup? {a b : String} {infoA infoB : ClassInfo} (ha : h.lookup? a = some infoA)
    (hb : h.lookup? b = some infoB) : Plain.commonSuperclass h a b = Plain.meet h infoA h.names infoB := by
  rw [Plain.commonSuperclass, Plain.resolve_eq_ok.mpr ha, Plain.resolve_eq_ok.mpr hb]
  rfl

theorem toOption_commonSuperclass_unknown {a b : String} (hgap : h.lookup? a = none ∨ h.lookup? b = none) :
    (Plain.commonSuperclass h a b).toOption = none := by
  rw [Plain.commonSuperclass]
  rcases hgap with ha | hb
  · rw [Plain.resolve_of_unknown ha]
    rfl
  · rw [Plain.resolve_of_unknown hb]
    cases Plain.resolve h a <;> rfl

theorem meet_of_root {a b : ClassInfo} (remaining : List String) (ha : h.lookup? a.name = some a)
    (hb : h.lookup? b.name = some b) (hroot : a.name = ClassInfo.rootName ∨ b.name = ClassInfo.rootName) :
    Plain.meet h a remaining b = .ok .root := by
  have hinfo : ∀ {info : ClassInfo}, h.lookup? info.name = some info → info.name = ClassInfo.rootName →
      info = .root := by
    intro info hinfo hname
    rw [hname, lookup?_root] at hinfo
    exact (Option.some.inj hinfo).symm
  rw [Plain.meet]
  by_cases haroot : a.name = ClassInfo.rootName
  · rw [if_pos haroot, hinfo ha haroot]
    rfl
  · have hbroot := hroot.resolve_left haroot
    rw [if_neg haroot, if_pos hbroot, hinfo hb hbroot]
    rfl

theorem Consistent.toOption_commonSuperclass_comm (hcons : h.Consistent) {a b : String}
    (hab : ¬h.Severed a b) (hba : ¬h.Severed b a) :
    (Plain.commonSuperclass h a b).toOption = (Plain.commonSuperclass h b a).toOption := by
  by_cases hne : a = b
  · rw [hne]
  cases ha : h.lookup? a with
  | none =>
    rw [toOption_commonSuperclass_unknown (Or.inl ha), toOption_commonSuperclass_unknown (Or.inr ha)]
  | some infoA =>
    cases hb : h.lookup? b with
    | none =>
      rw [toOption_commonSuperclass_unknown (Or.inr hb), toOption_commonSuperclass_unknown (Or.inl hb)]
    | some infoB =>
      rw [commonSuperclass_of_lookup? ha hb, commonSuperclass_of_lookup? hb ha]
      obtain rfl : infoA.name = a := hcons.named a infoA ha
      obtain rfl : infoB.name = b := hcons.named b infoB hb
      by_cases hroot : infoA.name = ClassInfo.rootName ∨ infoB.name = ClassInfo.rootName
      · rw [meet_of_root h.names ha hb hroot, meet_of_root h.names hb ha hroot.symm]
      obtain ⟨haroot, hbroot⟩ := not_or.mp hroot
      cases hkindA : infoA.isInterface with
      | true => exact hcons.toOption_meet_interface ha hb haroot hbroot hkindA
      | false =>
        cases hkindB : infoB.isInterface with
        | true => exact (hcons.toOption_meet_interface hb ha hbroot haroot hkindB).symm
        | false => exact hcons.toOption_meet_class ha hb haroot hbroot hkindA hkindB hab hba hne

/-- With the upper class first the search ends with it, with the lower class first at the gap. -/
theorem Severed.answers (hcons : h.Consistent) {lower upper : String} (hsevered : h.Severed lower upper) :
    ∃ info missing, h.lookup? upper = some info ∧ h.lookup? missing = none ∧
      Plain.commonSuperclass h upper lower = .ok info ∧
      Plain.commonSuperclass h lower upper = .error (.unresolved missing) := by
  obtain ⟨hne, hchain, hknows, missing, hlost⟩ := hsevered
  have hlostLower : h.Lost lower missing := ⟨hchain.trans hlost.1, hlost.2⟩
  have hknowsLower : h.Knows lower := hknows.of_below hchain.below
  have hisUpper : h.IsClass upper := hcons.isClass_of_lost hknows hlost
  have hisLower : h.IsClass lower := hcons.isClass_of_lost hknowsLower hlostLower
  have hmissed : ¬h.Descended upper lower := fun hback =>
    hne (below_antisymm hcons.acyclic hchain.below hback.below)
  obtain ⟨infoUpper, hinfoUpper⟩ := Option.isSome_iff_exists.mp hknows
  obtain ⟨infoLower, hinfoLower⟩ := Option.isSome_iff_exists.mp hknowsLower
  have hnotRoot : ∀ {name}, h.Lost name missing → name ≠ ClassInfo.rootName := by
    rintro name hlost rfl
    exact Rooted.not_lost .refl hlost
  refine ⟨infoUpper, missing, hinfoUpper, hlost.2, ?_, ?_⟩
  · rw [commonSuperclass_of_lookup? hinfoUpper hinfoLower, Plain.meet, hcons.named upper infoUpper hinfoUpper,
      hcons.named lower infoLower hinfoLower, if_neg (hnotRoot hlost), if_neg (hnotRoot hlostLower),
      hcons.isSubtype_of_descended hisUpper hchain]
    rfl
  · rw [commonSuperclass_of_lookup? hinfoLower hinfoUpper, Plain.meet, hcons.named upper infoUpper hinfoUpper,
      hcons.named lower infoLower hinfoLower, if_neg (hnotRoot hlostLower), if_neg (hnotRoot hlost),
      hcons.isSubtype_of_lost hisLower hlost hmissed]
    rfl

/-- In a hierarchy with gaps two classes have the same common superclass in both orders, or none in both,
whatever was asked before, exactly if the one is not a superclass of the other with a gap above it. If it is
one, the upper class is found with the upper class first, and with the lower class first the search fails at
the gap. -/
theorem commonSuperclass_symmetric_iff (hcons : h.Consistent) (a b : String) :
    ((∀ earlier later, (h.answerAfter earlier (h.commonSuperclass a b)).toOption =
        (h.answerAfter later (h.commonSuperclass b a)).toOption) ↔ ¬h.Severed a b ∧ ¬h.Severed b a) ∧
    (h.Severed a b → ∃ upper missing, h.lookup? b = some upper ∧ h.lookup? missing = none ∧
      ∀ earlier, h.answerAfter earlier (h.commonSuperclass b a) = .ok upper ∧
        h.answerAfter earlier (h.commonSuperclass a b) = .error (.unresolved missing)) := by
  have hanswer : ∀ a b earlier,
      h.answerAfter earlier (h.commonSuperclass a b) = Plain.commonSuperclass h a b :=
    fun a b => (answers_commonSuperclass a b).answerAfter
  simp only [hanswer]
  refine ⟨⟨fun hcomm => ?_, fun ⟨hab, hba⟩ _ _ => hcons.toOption_commonSuperclass_comm hab hba⟩, ?_⟩
  · have hsame := hcomm [] []
    constructor <;> intro hsevered
    all_goals
      obtain ⟨info, missing, -, -, hok, herror⟩ := hsevered.answers hcons
      rw [hok, herror] at hsame
      cases hsame
  · intro hsevered
    obtain ⟨info, missing, hinfo, hmissing, hok, herror⟩ := hsevered.answers hcons
    exact ⟨info, missing, hinfo, hmissing, fun _ => ⟨hok, herror⟩⟩

/-! ## Parts of a hierarchy -/

/-- Whatever the first hierarchy knows of a class, the other one knows too. -/
def IsPart (h whole : Hierarchy) : Prop :=
  ∀ name info, h.lookup? name = some info → whole.lookup? name = some info

theorem isPart_of_pool {pool : Pool} {loader loader' : Loader}
    (hloaders : ∀ name info, loader.find name = some info → loader'.find name = some info) :
    IsPart ⟨pool, loader⟩ ⟨pool, loader'⟩ := by
  intro name info hname
  unfold lookup? at hname ⊢
  split at hname
  · rename_i hroot
    rwa [if_pos hroot]
  · rename_i hroot
    rw [if_neg hroot, Option.or_eq_some_iff]
    rcases Option.or_eq_some_iff.mp hname with hpool | ⟨hnone, hloader⟩
    · exact Or.inl hpool
    · exact Or.inr ⟨hnone, hloaders name info hloader⟩

namespace IsPart

variable {whole : Hierarchy} (hpart : h.IsPart whole)

include hpart

theorem directlyBelow {name above : String} (hbelow : h.DirectlyBelow name above) :
    whole.DirectlyBelow name above := by
  obtain ⟨info, hname, habove⟩ := hbelow
  exact ⟨info, hpart name info hname, habove⟩

theorem extends_of_extends {name above : String} (hextends : h.Extends name above) :
    whole.Extends name above := by
  obtain ⟨info, hname, hsuper⟩ := hextends
  exact ⟨info, hpart name info hname, hsuper⟩

theorem isClass {name : String} (hclass : h.IsClass name) : whole.IsClass name := by
  obtain ⟨info, hname, hkind⟩ := hclass
  exact ⟨info, hpart name info hname, hkind⟩

theorem isInterface {name : String} (hinterface : h.IsInterface name) : whole.IsInterface name := by
  obtain ⟨info, hname, hkind⟩ := hinterface
  exact ⟨info, hpart name info hname, hkind⟩

/-- What is known of a well-formed hierarchy has gaps at the most. -/
theorem consistent (hwf : whole.WellFormed) : h.Consistent where
  named name info hname := hwf.named name info (hpart name info hname)
  acyclic name hcycle :=
    hwf.acyclic name (Relation.TransGen.mono (fun _ _ => hpart.directlyBelow) _ _ hcycle)
  superName name info hname := hwf.superName name info (hpart name info hname)
  superclass name above hclass hextends hknows :=
    hknows.isClass_or_isInterface.resolve_right fun hinterface =>
      (hwf.superclass name above (hpart.isClass hclass) (hpart.extends_of_extends hextends)).not_isInterface
        (hpart.isInterface hinterface)
  superinterface name above hinterface hextends :=
    hwf.superinterface name above (hpart.isInterface hinterface) (hpart.extends_of_extends hextends)
  interfaces name info hname above habove hknows :=
    hknows.isClass_or_isInterface.resolve_left fun hclass =>
      (hpart.isClass hclass).not_isInterface (hwf.interfaces name info (hpart name info hname) above habove)

end IsPart

end Hierarchy

namespace Samples

/-- A class with its superclass, and one with an interface. -/
def branch : Pool := (Pool.ofClasses [
  { name := "q/Base", superName := some "q/Missing" },
  { name := "q/Leaf", superName := some "q/Base" },
  { name := "q/Free", superName := some "java/lang/Object", interfaces := ["q/Trait"] }
  ]).toOption.getD Pool.empty

/-- The superclass above and the interface are missing. -/
def torn : Hierarchy := ⟨branch, Loader.empty⟩

def untorn : Hierarchy :=
  ⟨branch, Loader.ofInfos [Platform.classInfo "q/Missing" "java/lang/Object" [],
    Platform.interfaceInfo "q/Trait" []]⟩

theorem isOrdered_untorn : untorn.isOrdered
    ["java/lang/Object", "q/Missing", "q/Trait", "q/Base", "q/Leaf", "q/Free"] = true := by decide +kernel

theorem consistent_torn : torn.Consistent := by
  refine Hierarchy.IsPart.consistent (Hierarchy.isPart_of_pool ?_)
    (Hierarchy.wellFormed_of_isOrdered isOrdered_untorn)
  intro name info hnone
  cases hnone

end Samples

open Samples in
theorem commonSuperclass_symmetric_iff_torn : torn.Consistent ∧
    (∀ earlier later, (torn.answerAfter earlier (torn.commonSuperclass "q/Leaf" "q/Free")).toOption =
      (torn.answerAfter later (torn.commonSuperclass "q/Free" "q/Leaf")).toOption) ∧
    ∃ upper missing, torn.lookup? "q/Base" = some upper ∧ torn.lookup? missing = none ∧
      ∀ earlier, torn.answerAfter earlier (torn.commonSuperclass "q/Base" "q/Leaf") = .ok upper ∧
        torn.answerAfter earlier (torn.commonSuperclass "q/Leaf" "q/Base") =
          .error (.unresolved missing) := by
  have hleaf : torn.Extends "q/Leaf" "q/Base" := ⟨_, rfl, rfl⟩
  have hbase : torn.Extends "q/Base" "q/Missing" := ⟨_, rfl, rfl⟩
  have hfree : torn.Rooted "q/Free" := .single ⟨_, rfl, rfl⟩
  have hsevered : torn.Severed "q/Leaf" "q/Base" :=
    ⟨by decide, .single hleaf, by decide +kernel, "q/Missing", .single hbase, by decide +kernel⟩
  refine ⟨consistent_torn, ?_, ?_⟩
  · rw [(Hierarchy.commonSuperclass_symmetric_iff consistent_torn "q/Leaf" "q/Free").1]
    constructor
    · rintro ⟨-, -, -, missing, hlost⟩
      exact hfree.not_lost hlost
    · rintro ⟨-, hchain, -, missing, hlost⟩
      exact hfree.not_lost ⟨hchain.trans hlost.1, hlost.2⟩
  · exact (Hierarchy.commonSuperclass_symmetric_iff consistent_torn "q/Leaf" "q/Base").2 hsevered

/-- The order of two classes decides whether they have a common superclass. -/
theorem common_superclass_lost_to_order : Samples.torn.Consistent ∧
    (Samples.torn.answerAfter [] (Samples.torn.commonSuperclass "q/Base" "q/Leaf")).toOption =
      some ⟨"q/Base", some "q/Missing", [], false⟩ ∧
    (Samples.torn.answerAfter [] (Samples.torn.commonSuperclass "q/Leaf" "q/Base")).toOption = none :=
  ⟨Samples.consistent_torn, by decide +kernel, by decide +kernel⟩

end Classmith
