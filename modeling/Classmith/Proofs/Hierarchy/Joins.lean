import Classmith.Proofs.Hierarchy.Assignability

/-!
# Common superclasses

In a well-formed hierarchy the common superclass of two classes is their join: the lowest class above
both. With an interface among the two it is the upper one if one is above the other, and the root if not.
The search keeps the first class and moves only the second, and it does not matter which is which.
-/
namespace Classmith

namespace Hierarchy

/-- What the merge of two classes is. -/
structure Merges (h : Hierarchy) (a b r : String) : Prop where
  left : h.Below a r
  right : h.Below b r
  /-- Of two classes it is the lowest class above both. -/
  least : h.IsClass a → h.IsClass b →
    h.IsClass r ∧ ∀ s, h.IsClass s → h.Below a s → h.Below b s → h.Below r s
  /-- With an interface it is one of the two or the root. -/
  upper : h.IsInterface a ∨ h.IsInterface b → (h.Below b a → r = a) ∧ (h.Below a b → r = b) ∧
    (¬h.Below b a → ¬h.Below a b → r = ClassInfo.rootName)

namespace Merges

variable {h : Hierarchy} {a b c r s : String}

theorem symm (hr : h.Merges a b r) : h.Merges b a r where
  left := hr.right
  right := hr.left
  least hb ha :=
    ⟨(hr.least ha hb).1, fun s hs hbs has => (hr.least ha hb).2 s hs has hbs⟩
  upper hinterface :=
    ⟨(hr.upper hinterface.symm).2.1, (hr.upper hinterface.symm).1,
      fun hab hba => (hr.upper hinterface.symm).2.2 hba hab⟩

theorem unique (hwf : h.WellFormed) (ha : h.Knows a) (hb : h.Knows b) (hr : h.Merges a b r)
    (hs : h.Merges a b s) : r = s := by
  have hupper : h.IsInterface a ∨ h.IsInterface b → r = s := by
    intro hinterface
    obtain ⟨hra, hrb, hroot⟩ := hr.upper hinterface
    obtain ⟨hsa, hsb, hroot'⟩ := hs.upper hinterface
    by_cases hba : h.Below b a
    · rw [hra hba, hsa hba]
    · by_cases hab : h.Below a b
      · rw [hrb hab, hsb hab]
      · rw [hroot hba hab, hroot' hba hab]
  rcases ha.isClass_or_isInterface with hclass | hinterface
  · rcases hb.isClass_or_isInterface with hclass' | hinterface
    · obtain ⟨hrclass, hrleast⟩ := hr.least hclass hclass'
      obtain ⟨hsclass, hsleast⟩ := hs.least hclass hclass'
      exact hwf.below_antisymm (hrleast s hsclass hs.left hs.right) (hsleast r hrclass hr.left hr.right)
    · exact hupper (Or.inr hinterface)
  · exact hupper (Or.inl hinterface)

theorem self (hwf : h.WellFormed) (ha : h.IsClass a) (hr : h.Merges a a r) : r = a :=
  hwf.below_antisymm ((hr.least ha ha).2 a ha .refl .refl) hr.left

/-- Merging a third class with the merge of two gives the lowest class above all three. -/
theorem least_of_three {ab : String} (ha : h.IsClass a) (hb : h.IsClass b) (hc : h.IsClass c)
    (hab : h.Merges a b ab) (hr : h.Merges ab c r) (hs : h.IsClass s) (has : h.Below a s)
    (hbs : h.Below b s) (hcs : h.Below c s) : h.Below r s := by
  obtain ⟨habclass, hableast⟩ := hab.least ha hb
  exact (hr.least habclass hc).2 s hs (hableast s hs has hbs) hcs

theorem assoc (hwf : h.WellFormed) {ab bc : String} (ha : h.IsClass a) (hb : h.IsClass b)
    (hc : h.IsClass c) (hab : h.Merges a b ab) (hr : h.Merges ab c r) (hbc : h.Merges b c bc)
    (hs : h.Merges a bc s) : r = s := by
  have habclass : h.IsClass ab := (hab.least ha hb).1
  have hbcclass : h.IsClass bc := (hbc.least hb hc).1
  have hrclass : h.IsClass r := (hr.least habclass hc).1
  have hsclass : h.IsClass s := (hs.least ha hbcclass).1
  apply hwf.below_antisymm
  · exact least_of_three ha hb hc hab hr hsclass hs.left (hbc.left.trans hs.right)
      (hbc.right.trans hs.right)
  · exact least_of_three hb hc ha hbc hs.symm hrclass (hab.right.trans hr.left) hr.right
      (hab.left.trans hr.left)

end Merges

/-! ## The search -/

namespace WellFormed

variable {h : Hierarchy} (hwf : h.WellFormed)

include hwf

theorem isSubtype_of_below {super sub : String} (hsuper : h.Knows super) (hsub : h.Knows sub)
    (hbelow : h.Below sub super) : Plain.isSubtype h super sub = .ok true := by
  obtain ⟨b, hanswer, hb⟩ := hwf.isSubtype_spec hsuper hsub
  rw [hanswer, hb.mpr hbelow]

theorem isSubtype_of_not_below {super sub : String} (hsuper : h.Knows super) (hsub : h.Knows sub)
    (hbelow : ¬h.Below sub super) : Plain.isSubtype h super sub = .ok false := by
  obtain ⟨b, hanswer, hb⟩ := hwf.isSubtype_spec hsuper hsub
  rw [hanswer, Bool.eq_false_iff.mpr fun hb' => hbelow (hb.mp hb')]

variable {a b : ClassInfo} {remaining : List String}

/-- Of two comparable classes the search returns the upper one. -/
theorem meet_of_comparable (ha : h.lookup? a.name = some a) (hb : h.lookup? b.name = some b) :
    (h.Below b.name a.name → Plain.meet h a remaining b = .ok a) ∧
      (h.Below a.name b.name → Plain.meet h a remaining b = .ok b) := by
  have hknowsA : h.Knows a.name := knows_of_lookup? ha
  have hknowsB : h.Knows b.name := knows_of_lookup? hb
  have hsame : a.name = b.name → a = b := by
    intro hname
    rw [hname, hb] at ha
    exact (Option.some.inj ha).symm
  constructor
  · intro hbelow
    rw [Plain.meet]
    by_cases haroot : a.name = ClassInfo.rootName
    · exact if_pos haroot
    rw [if_neg haroot]
    by_cases hbroot : b.name = ClassInfo.rootName
    · rw [hbroot] at hbelow
      exact absurd (eq_root_of_below hbelow) haroot
    rw [if_neg hbroot, hwf.isSubtype_of_below hknowsA hknowsB hbelow]
    rfl
  · intro hbelow
    rw [Plain.meet]
    by_cases haroot : a.name = ClassInfo.rootName
    · rw [haroot] at hbelow
      have hbroot := eq_root_of_below hbelow
      rw [if_pos haroot, hsame (haroot.trans hbroot.symm)]
      rfl
    rw [if_neg haroot]
    by_cases hbroot : b.name = ClassInfo.rootName
    · exact if_pos hbroot
    rw [if_neg hbroot]
    by_cases hback : h.Below b.name a.name
    · rw [hwf.isSubtype_of_below hknowsA hknowsB hback, hsame (hwf.below_antisymm hbelow hback)]
      rfl
    · rw [hwf.isSubtype_of_not_below hknowsA hknowsB hback,
        hwf.isSubtype_of_below hknowsB hknowsA hbelow]
      rfl

/-- Of two classes that are not comparable the search gives up at an interface and else moves the second
one up. -/
theorem meet_of_incomparable (remaining : List String) (ha : h.lookup? a.name = some a)
    (hb : h.lookup? b.name = some b) (hba : ¬h.Below b.name a.name)
    (hab : ¬h.Below a.name b.name) :
    (a.isInterface = true ∨ b.isInterface = true → Plain.meet h a remaining b = .ok .root) ∧
      (a.isInterface = false → b.isInterface = false → ∃ above next, b.superName = some above ∧
        h.lookup? above = some next ∧ (above ∈ remaining →
          Plain.meet h a remaining b = Plain.meet h a (without above remaining) next)) := by
  have hknowsA : h.Knows a.name := knows_of_lookup? ha
  have hknowsB : h.Knows b.name := knows_of_lookup? hb
  have haroot : a.name ≠ ClassInfo.rootName := by
    intro hroot
    rw [hroot] at hba
    exact hba (hwf.below_root hknowsB)
  have hbroot : b.name ≠ ClassInfo.rootName := by
    intro hroot
    rw [hroot] at hab
    exact hab (hwf.below_root hknowsA)
  have hdown : Plain.isSubtype h a.name b.name = .ok false :=
    hwf.isSubtype_of_not_below hknowsA hknowsB hba
  have hup : Plain.isSubtype h b.name a.name = .ok false :=
    hwf.isSubtype_of_not_below hknowsB hknowsA hab
  constructor
  · intro hinterface
    have hor : (a.isInterface || b.isInterface) = true := by simpa using hinterface
    rw [Plain.meet, if_neg haroot, if_neg hbroot, hdown, hup]
    change (if (a.isInterface || b.isInterface) = true then _ else _) = _
    rw [if_pos hor, Plain.resolve_eq_ok.mpr h.lookup?_root]
  · intro hclassA hclassB
    obtain ⟨above, hsuper⟩ := Option.isSome_iff_exists.mp (hwf.superName b.name b hb hbroot)
    obtain ⟨next, hnext⟩ := Option.isSome_iff_exists.mp
      (hwf.isClass_of_extends ⟨b, hb, hsuper⟩).knows
    refine ⟨above, next, hsuper, hnext, fun hmem => ?_⟩
    rw [Plain.meet, if_neg haroot, if_neg hbroot, hdown, hup]
    change (if (a.isInterface || b.isInterface) = true then _ else _) = _
    rw [hclassA, hclassB, Bool.or_false, if_neg Bool.false_ne_true, hsuper, Option.getD_some,
      Plain.resolve_eq_ok.mpr hnext]
    exact dif_pos hmem

/-- The upper one of two comparable classes is their merge. -/
theorem merges_of_below {a b : String} (hbelow : h.Below b a) : h.Merges a b a where
  left := .refl
  right := hbelow
  least ha _ := ⟨ha, fun _ _ has _ => has⟩
  upper _ :=
    ⟨fun _ => rfl, fun hback => hwf.below_antisymm hback hbelow, fun hnot => absurd hbelow hnot⟩

theorem merges_root {a b : String} (ha : h.Knows a) (hb : h.Knows b) (hba : ¬h.Below b a)
    (hab : ¬h.Below a b) (hinterface : h.IsInterface a ∨ h.IsInterface b) :
    h.Merges a b ClassInfo.rootName where
  left := hwf.below_root ha
  right := hwf.below_root hb
  least hclassA hclassB :=
    absurd hinterface (not_or.mpr ⟨hclassA.not_isInterface, hclassB.not_isInterface⟩)
  upper _ := ⟨fun hback => absurd hback hba, fun hforth => absurd hforth hab, fun _ _ => rfl⟩

/-- Moving up keeps the merge: the second class is not above the first, so every class above both is
above its superclass too. -/
theorem merges_of_extends {a b next r : String} (ha : h.IsClass a) (hb : h.IsClass b)
    (hab : ¬h.Below a b) (hextends : h.Extends b next) (hr : h.Merges a next r) : h.Merges a b r where
  left := hr.left
  right := .head hextends.directlyBelow hr.right
  least _ _ := by
    obtain ⟨hclass, hleast⟩ := hr.least ha (hwf.isClass_of_extends hextends)
    refine ⟨hclass, fun s hs has hbs => hleast s hs has ?_⟩
    obtain ⟨info, hinfo, hsuper⟩ := hextends
    rw [hwf.below_class_iff hb.knows hs, descended_iff hinfo] at hbs
    rcases hbs with rfl | ⟨top, htop, hbs⟩
    · exact absurd has hab
    · rw [hsuper] at htop
      cases htop
      exact Descended.below hbs
  upper hinterface := absurd hinterface (not_or.mpr ⟨ha.not_isInterface, hb.not_isInterface⟩)

/-- The search succeeds, and what it returns is the merge. -/
theorem meet_spec (ha : h.lookup? a.name = some a) (hb : h.lookup? b.name = some b)
    (hall : ∀ above, Relation.TransGen h.Extends b.name above → above ∈ remaining) :
    ∃ r, Plain.meet h a remaining b = .ok r ∧ h.lookup? r.name = some r ∧
      h.Merges a.name b.name r.name := by
  induction remaining using without_induction generalizing b with
  | step remaining ih =>
    by_cases hba : h.Below b.name a.name
    · exact ⟨a, (hwf.meet_of_comparable ha hb).1 hba, ha, hwf.merges_of_below hba⟩
    by_cases hab : h.Below a.name b.name
    · exact ⟨b, (hwf.meet_of_comparable ha hb).2 hab, hb, (hwf.merges_of_below hab).symm⟩
    obtain ⟨hgiveUp, hmove⟩ := hwf.meet_of_incomparable remaining ha hb hba hab
    by_cases hinterface : a.isInterface = true ∨ b.isInterface = true
    · have hmerges : h.Merges a.name b.name ClassInfo.rootName :=
        hwf.merges_root (knows_of_lookup? ha) (knows_of_lookup? hb) hba hab
          (hinterface.imp (fun hkind => ⟨a, ha, hkind⟩) fun hkind => ⟨b, hb, hkind⟩)
      exact ⟨.root, hgiveUp hinterface, h.lookup?_root, hmerges⟩
    · obtain ⟨hkindA, hkindB⟩ := not_or.mp hinterface
      rw [Bool.not_eq_true] at hkindA hkindB
      obtain ⟨above, next, hsuper, hnext, hmeet⟩ := hmove hkindA hkindB
      have hextends : h.Extends b.name above := ⟨b, hb, hsuper⟩
      have hmem : above ∈ remaining := hall above (.single hextends)
      obtain rfl : next.name = above := hwf.named above next hnext
      obtain ⟨r, hr, hlookup, hmerges⟩ := ih next.name hmem hnext
        (mem_without_of_extends hall hextends (hwf.acyclic next.name))
      refine ⟨r, (hmeet hmem).trans hr, hlookup, ?_⟩
      exact hwf.merges_of_extends ⟨a, ha, hkindA⟩ ⟨b, hb, hkindB⟩ hab hextends hmerges

theorem commonSuperclass_spec {a b : String} (ha : h.Knows a) (hb : h.Knows b) :
    ∃ r, Plain.commonSuperclass h a b = .ok r ∧ h.lookup? r.name = some r ∧ h.Merges a b r.name := by
  obtain ⟨infoA, hinfoA⟩ := Option.isSome_iff_exists.mp ha
  obtain ⟨infoB, hinfoB⟩ := Option.isSome_iff_exists.mp hb
  have hnameA : infoA.name = a := hwf.named a infoA hinfoA
  have hnameB : infoB.name = b := hwf.named b infoB hinfoB
  rw [Plain.commonSuperclass, Plain.resolve_eq_ok.mpr hinfoA, Plain.resolve_eq_ok.mpr hinfoB]
  subst hnameA hnameB
  apply hwf.meet_spec hinfoA hinfoB
  intro above hchain
  exact mem_names_of_lookup?
    (hwf.knows_of_below hb (transGen_directlyBelow hchain).to_reflTransGen)

end WellFormed

/-! ## The query -/

/-- The name of the common superclass that a resolver gives after it has been asked other things. -/
def commonName (h : Hierarchy) (earlier : List Call) (a b : String) : Except Error String :=
  (h.answerAfter earlier (h.commonSuperclass a b)).map fun r => r.name

theorem WellFormed.commonName_spec {h : Hierarchy} (hwf : h.WellFormed) {a b : String} (ha : h.Knows a)
    (hb : h.Knows b) : ∃ r, (∀ earlier, h.commonName earlier a b = .ok r) ∧ h.Merges a b r := by
  obtain ⟨r, hr, -, hmerges⟩ := hwf.commonSuperclass_spec ha hb
  refine ⟨r.name, fun earlier => ?_, hmerges⟩
  rw [commonName, (answers_commonSuperclass a b).answerAfter, hr]
  rfl

/-- In a well-formed hierarchy two known classes have a common superclass, whatever was asked before. It
is above both. Of two classes it is the lowest class above both, with an interface among the two it is the
upper one or, if they are not comparable, the root. The order of the two makes no difference, and on classes
the operation is idempotent and associative. -/
theorem commonSuperclass_is_join {h : Hierarchy} (hwf : h.WellFormed) :
    (∀ a b, h.Knows a → h.Knows b → ∀ earlier, ∃ r,
      h.answerAfter earlier (h.commonSuperclass a b) = .ok r ∧ h.lookup? r.name = some r ∧
      h.Assignable r.name a ∧ h.Assignable r.name b ∧
      (h.IsClass a → h.IsClass b → h.IsClass r.name ∧
        ∀ s, h.IsClass s → h.Assignable s a → h.Assignable s b → h.Assignable s r.name) ∧
      (h.IsInterface a ∨ h.IsInterface b → (h.Assignable a b → r.name = a) ∧
        (h.Assignable b a → r.name = b) ∧
        (¬h.Assignable a b → ¬h.Assignable b a → r.name = ClassInfo.rootName))) ∧
    (∀ a b, h.Knows a → h.Knows b → ∀ earlier later,
      h.commonName earlier a b = h.commonName later b a) ∧
    (∀ a, h.IsClass a → ∀ earlier, h.commonName earlier a a = .ok a) ∧
    (∀ a b c, h.IsClass a → h.IsClass b → h.IsClass c → ∀ earlier later,
      (h.commonName earlier a b >>= fun ab => h.commonName earlier ab c) =
        (h.commonName later b c >>= fun bc => h.commonName later a bc)) := by
  refine ⟨?_, ?_, ?_, ?_⟩
  · intro a b ha hb earlier
    obtain ⟨r, hr, hlookup, hmerges⟩ := hwf.commonSuperclass_spec ha hb
    have hknows : h.Knows r.name := hwf.knows_of_below ha hmerges.left
    refine ⟨r, ?_, hlookup, (hwf.assignable_iff hknows ha).mpr hmerges.left,
      (hwf.assignable_iff hknows hb).mpr hmerges.right, ?_, ?_⟩
    · rw [(answers_commonSuperclass a b).answerAfter, hr]
    · intro hclassA hclassB
      obtain ⟨hclass, hleast⟩ := hmerges.least hclassA hclassB
      refine ⟨hclass, fun s hs has hbs => (hwf.assignable_iff hs.knows hknows).mpr ?_⟩
      exact hleast s hs ((hwf.assignable_iff hs.knows ha).mp has)
        ((hwf.assignable_iff hs.knows hb).mp hbs)
    · rw [hwf.assignable_iff ha hb, hwf.assignable_iff hb ha]
      exact hmerges.upper
  · intro a b ha hb earlier later
    obtain ⟨r, hr, hmerges⟩ := hwf.commonName_spec ha hb
    obtain ⟨s, hs, hmerges'⟩ := hwf.commonName_spec hb ha
    rw [hr, hs, hmerges.unique hwf ha hb hmerges'.symm]
  · intro a ha earlier
    obtain ⟨r, hr, hmerges⟩ := hwf.commonName_spec ha.knows ha.knows
    rw [hr, hmerges.self hwf ha]
  · intro a b c ha hb hc earlier later
    obtain ⟨ab, hab, hmergesAB⟩ := hwf.commonName_spec ha.knows hb.knows
    obtain ⟨bc, hbc, hmergesBC⟩ := hwf.commonName_spec hb.knows hc.knows
    have hknowsAB : h.Knows ab := hwf.knows_of_below ha.knows hmergesAB.left
    have hknowsBC : h.Knows bc := hwf.knows_of_below hb.knows hmergesBC.left
    obtain ⟨r, hr, hmerges⟩ := hwf.commonName_spec hknowsAB hc.knows
    obtain ⟨s, hs, hmerges'⟩ := hwf.commonName_spec ha.knows hknowsBC
    have hsame : r = s := hmergesAB.assoc hwf ha hb hc hmerges hmergesBC hmerges'
    rw [hab, hbc]
    change h.commonName earlier ab c = h.commonName later a bc
    rw [hr, hs, hsame]

end Hierarchy

open Samples in
theorem commonSuperclass_is_join_family : family.WellFormed ∧
    (∃ r, family.answerAfter [.isSubtype "p/Solid" "p/Flat"] (family.commonSuperclass "p/Ball" "p/Flat") =
      .ok r ∧ r.name = "p/Base" ∧ family.Assignable "p/Base" "p/Ball" ∧
      family.Assignable "p/Base" "p/Flat" ∧ ∀ s, family.IsClass s → family.Assignable s "p/Ball" →
        family.Assignable s "p/Flat" → family.Assignable s "p/Base") ∧
    (family.commonName [] "p/Ball" "p/Shape").toOption = some "p/Shape" := by
  have hwf : family.WellFormed := Hierarchy.wellFormed_of_isOrdered isOrdered_family
  have hball : family.IsClass "p/Ball" := ⟨_, rfl, rfl⟩
  have hflat : family.IsClass "p/Flat" := ⟨_, rfl, rfl⟩
  obtain ⟨hjoin, hcomm, -, -⟩ := Hierarchy.commonSuperclass_is_join hwf
  obtain ⟨r, hr, -, hupBall, hupFlat, hleast, -⟩ :=
    hjoin "p/Ball" "p/Flat" hball.knows hflat.knows [.isSubtype "p/Solid" "p/Flat"]
  have hname : r.name = "p/Base" := by
    have hrun : (family.answerAfter [.isSubtype "p/Solid" "p/Flat"]
        (family.commonSuperclass "p/Ball" "p/Flat")).toOption.map (fun r => r.name) =
          some "p/Base" := by
      decide +kernel
    rw [hr] at hrun
    exact Option.some.inj hrun
  rw [hname] at hupBall hupFlat hleast
  refine ⟨hwf, ⟨r, hr, hname, hupBall, hupFlat, (hleast hball hflat).2⟩, ?_⟩
  rw [hcomm "p/Ball" "p/Shape" hball.knows (by decide +kernel) [] []]
  decide +kernel

end Classmith
