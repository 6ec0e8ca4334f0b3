import Classmith.Proofs.Hierarchy.Searches

/-!
# Chains of superclasses

From every name there is one chain of superclasses. It ends at a class without a superclass or at a name
that no source knows, or it runs into a cycle. A walk along it to a class that is no interface tells exactly
which of these happens before the class is met, in every hierarchy.
-/
namespace Classmith

namespace Hierarchy

variable {h : Hierarchy}

theorem Extends.descended_iff {name next x : String} (hnext : h.Extends name next) :
    h.Descended name x ↔ name = x ∨ h.Descended next x := by
  rw [Descended, Relation.ReflTransGen.cases_head_iff]
  refine or_congr_right ⟨?_, fun hchain => ⟨next, hnext, hchain⟩⟩
  rintro ⟨other, hother, hchain⟩
  rwa [h.rightUnique_extends hother hnext] at hchain

/-! ## How a chain can go on -/

/-- The chain goes no further than the name. -/
def IsEnd (h : Hierarchy) (name : String) : Prop := ∀ above, ¬h.Extends name above

theorem isEnd_of_unknown {name : String} (hname : h.lookup? name = none) : h.IsEnd name := by
  rintro above ⟨info, hinfo, -⟩
  rw [hname] at hinfo
  cases hinfo

theorem isEnd_of_superName {name : String} {info : ClassInfo} (hname : h.lookup? name = some info)
    (hsuper : info.superName = none) : h.IsEnd name := by
  rintro above ⟨info', hinfo', habove⟩
  rw [hname] at hinfo'
  cases hinfo'
  rw [hsuper] at habove
  cases habove

namespace IsEnd

variable {name top x : String}

theorem eq_of_descended (hend : h.IsEnd top) (hchain : h.Descended top x) : x = top := by
  rcases Relation.ReflTransGen.cases_head hchain with heq | ⟨next, hnext, -⟩
  · exact heq.symm
  · exact absurd hnext (hend next)

/-- Every name of a chain that ends leads to the end. -/
theorem descended (hend : h.IsEnd top) (htop : h.Descended name top) (hx : h.Descended name x) :
    h.Descended x top := by
  rcases descended_or_descended htop hx with hback | hup
  · rw [hend.eq_of_descended hback]
    exact .refl
  · exact hup

theorem unique (hend : h.IsEnd top) (hx : h.IsEnd x) (htop : h.Descended name top)
    (hchain : h.Descended name x) : x = top :=
  (hx.eq_of_descended (hend.descended htop hchain)).symm

end IsEnd

/-- What a cycle leads to lies on it. -/
theorem transGen_of_descended {x y : String} (hcycle : Relation.TransGen h.Extends x x)
    (hchain : h.Descended x y) : Relation.TransGen h.Extends y y := by
  induction hchain with
  | refl => exact hcycle
  | @tail y z _ hstep ih =>
    obtain ⟨next, hnext, hback⟩ := Relation.TransGen.head'_iff.mp ih
    rw [h.rightUnique_extends hnext hstep] at hback
    exact Relation.TransGen.tail' hback hstep

/-- A chain that ends has no cycle. -/
theorem IsEnd.not_cycle {name top x : String} (hend : h.IsEnd top) (htop : h.Descended name top)
    (hx : h.Descended name x) : ¬Relation.TransGen h.Extends x x := by
  intro hcycle
  have hturn := transGen_of_descended hcycle (hend.descended htop hx)
  obtain ⟨next, hnext, -⟩ := Relation.TransGen.head'_iff.mp hturn
  exact hend next hnext

/-! ## How a walk can end -/

/-- What the answer of a walk says about the chain of superclasses that it walks along. -/
inductive Outcome (h : Hierarchy) (name target : String) : Except Error Bool → Prop
  | met (chain : h.Descended name target) : Outcome h name target (.ok true)
  | topped {top : String} {info : ClassInfo} (missed : ¬h.Descended name target)
    (chain : h.Descended name top) (known : h.lookup? top = some info) (last : info.superName = none) :
    Outcome h name target (.ok false)
  | lost {x : String} (missed : ¬h.Descended name target) (chain : h.Descended name x)
    (unknown : h.lookup? x = none) : Outcome h name target (.error (.unresolved x))
  | turned {x : String} (missed : ¬h.Descended name target) (chain : Relation.TransGen h.Extends name x)
    (cycle : Relation.TransGen h.Extends x x) : Outcome h name target (.error (.cyclic x))

theorem Outcome.head {name next target : String} {answer : Except Error Bool} (hname : name ≠ target)
    (hnext : h.Extends name next) (houtcome : h.Outcome next target answer) :
    h.Outcome name target answer := by
  have hmissed : ¬h.Descended next target → ¬h.Descended name target := fun hmissed hchain =>
    (hnext.descended_iff.mp hchain).elim hname hmissed
  cases houtcome with
  | met hchain => exact .met (.head hnext hchain)
  | topped hnot hchain hknown hlast => exact .topped (hmissed hnot) (.head hnext hchain) hknown hlast
  | lost hnot hchain hunknown => exact .lost (hmissed hnot) (.head hnext hchain) hunknown
  | turned hnot hchain hcycle => exact .turned (hmissed hnot) (.head hnext hchain) hcycle

/-- What is known of the names that a walk may not come to any more, once it has come to `name`: they lead to
`name`, and those before it are not the target and their superclasses may not be come to either. -/
structure Walked (h : Hierarchy) (target : String) (remaining : List String) (name : String) : Prop where
  leads : ∀ other, h.Knows other → other ∉ remaining → h.Descended other name
  passed : ∀ other, h.Knows other → other ∉ remaining → other = name ∨
    other ≠ target ∧ ∀ above, h.Extends other above → h.Knows above ∧ above ∉ remaining

theorem walked_names (h : Hierarchy) (target name : String) : h.Walked target h.names name where
  leads _ hknows hnot := absurd (mem_names_of_lookup? hknows) hnot
  passed _ hknows hnot := absurd (mem_names_of_lookup? hknows) hnot

namespace Walked

variable {target name next : String} {remaining : List String}

theorem step (hwalked : h.Walked target remaining name) (hname : name ≠ target)
    (hextends : h.Extends name next) (hnext : h.Knows next) :
    h.Walked target (without next remaining) next where
  leads other hknows hnot := by
    by_cases hother : other = next
    · rw [hother]
      exact .refl
    · have hmem : other ∉ remaining := fun hmem => hnot (mem_without.mpr ⟨hmem, hother⟩)
      exact .tail (hwalked.leads other hknows hmem) hextends
  passed other hknows hnot := by
    by_cases hother : other = next
    · exact Or.inl hother
    have hmem : other ∉ remaining := fun hmem => hnot (mem_without.mpr ⟨hmem, hother⟩)
    refine Or.inr ?_
    rcases hwalked.passed other hknows hmem with rfl | ⟨hmissed, habove⟩
    · refine ⟨hname, fun above hstep => ?_⟩
      rw [h.rightUnique_extends hstep hextends]
      exact ⟨hnext, fun hmem => (mem_without.mp hmem).2 rfl⟩
    · refine ⟨hmissed, fun above hstep => ?_⟩
      obtain ⟨hknows', hmem'⟩ := habove above hstep
      exact ⟨hknows', fun hmem => hmem' (mem_without.mp hmem).1⟩

/-- A walk that comes to a name again has seen the whole chain, and the target is not on it. -/
theorem not_descended (hwalked : h.Walked target remaining name) (hname : name ≠ target)
    (hextends : h.Extends name next) (hnext : h.Knows next) (hmem : next ∉ remaining) :
    ¬h.Descended name target := by
  -- the names that may not be come to any more are closed under superclasses
  have hclosed : ∀ x, h.Descended next x → h.Knows x ∧ x ∉ remaining := by
    intro x hchain
    induction hchain with
    | refl => exact ⟨hnext, hmem⟩
    | @tail y z _ hstep ih =>
      rcases hwalked.passed y ih.1 ih.2 with rfl | ⟨-, habove⟩
      · rw [h.rightUnique_extends hstep hextends]
        exact ⟨hnext, hmem⟩
      · exact habove z hstep
  intro hchain
  rcases hextends.descended_iff.mp hchain with heq | hrest
  · exact hname heq
  · obtain ⟨hknows, hnot⟩ := hclosed target hrest
    rcases hwalked.passed target hknows hnot with heq | ⟨hmissed, -⟩
    · exact hname heq.symm
    · exact hmissed rfl

theorem outcome (hnamed : h.Named) (htarget : h.Knows target) {current : ClassInfo}
    (hwalked : h.Walked target remaining name) (hname : h.lookup? name = some current) :
    h.Outcome name target (Plain.climb h target remaining current) := by
  induction remaining using without_induction generalizing name current with
  | step remaining ih =>
    rw [Plain.climb, hnamed name current hname]
    by_cases heq : name = target
    · rw [if_pos heq, heq]
      exact .met .refl
    rw [if_neg heq]
    cases hsuper : current.superName with
    | none =>
      refine .topped (fun hchain => heq ?_) .refl hname hsuper
      exact ((isEnd_of_superName hname hsuper).eq_of_descended hchain).symm
    | some above =>
      have hextends : h.Extends name above := ⟨current, hname, hsuper⟩
      rw [Option.elim_some]
      cases habove : h.lookup? above with
      | none =>
        rw [Plain.resolve_of_unknown habove]
        refine .head heq hextends (.lost (fun hchain => ?_) .refl habove)
        rw [(isEnd_of_unknown habove).eq_of_descended hchain, Knows, habove] at htarget
        cases htarget
      | some next =>
        have hknows : h.Knows above := knows_of_lookup? habove
        rw [Plain.resolve_eq_ok.mpr habove]
        change h.Outcome name target (if _ : above ∈ remaining then _ else _)
        by_cases hmem : above ∈ remaining
        · rw [dif_pos hmem]
          exact .head heq hextends (ih above hmem (hwalked.step heq hextends hknows) habove)
        · rw [dif_neg hmem]
          have hback : h.Descended above name := hwalked.leads above hknows hmem
          exact .turned (hwalked.not_descended heq hextends hknows hmem) (.single hextends)
            (Relation.TransGen.tail' hback hextends)

end Walked

theorem outcome_isSubtype (hnamed : h.Named) {super : String} (hsuper : h.IsClass super) (sub : String) :
    h.Outcome sub super (Plain.isSubtype h super sub) := by
  obtain ⟨target, htarget, hkind⟩ := hsuper
  have hknows : h.Knows super := knows_of_lookup? htarget
  rw [Plain.isSubtype, Plain.resolve_eq_ok.mpr htarget]
  change h.Outcome sub super (if target.isInterface = true then _ else _)
  rw [hkind, if_neg Bool.false_ne_true, hnamed super target htarget]
  cases hsub : h.lookup? sub with
  | none =>
    rw [Plain.resolve_of_unknown hsub]
    refine .lost (fun hchain => ?_) .refl hsub
    rw [(isEnd_of_unknown hsub).eq_of_descended hchain, Knows, hsub] at hknows
    cases hknows
  | some start =>
    rw [Plain.resolve_eq_ok.mpr hsub]
    exact (h.walked_names super sub).outcome hnamed hknows hsub

namespace Outcome

variable {name target : String} {answer : Except Error Bool} (houtcome : h.Outcome name target answer)

include houtcome

theorem eq_true_iff : answer = .ok true ↔ h.Descended name target := by
  cases houtcome with
  | met hchain => simp [hchain]
  | topped hmissed => simp [hmissed]
  | lost hmissed => simp [hmissed]
  | turned hmissed => simp [hmissed]

theorem eq_false_iff : answer = .ok false ↔ ¬h.Descended name target ∧
    ∃ top info, h.Descended name top ∧ h.lookup? top = some info ∧ info.superName = none := by
  cases houtcome with
  | met hchain => simp [hchain]
  | topped hmissed hchain hknown hlast => simpa [hmissed] using ⟨_, hchain, _, hknown, hlast⟩
  | @lost x hmissed hchain hunknown =>
    refine ⟨fun h => by simp at h, ?_⟩
    rintro ⟨-, top, info, htop, hinfo, hlast⟩
    rw [(isEnd_of_superName hinfo hlast).unique (isEnd_of_unknown hunknown) htop hchain, hinfo] at hunknown
    cases hunknown
  | turned hmissed hchain hcycle =>
    refine ⟨fun h => by simp at h, ?_⟩
    rintro ⟨-, top, info, htop, hinfo, hlast⟩
    exact absurd hcycle ((isEnd_of_superName hinfo hlast).not_cycle htop hchain.to_reflTransGen)

theorem eq_unresolved_iff (x : String) : answer = .error (.unresolved x) ↔
    ¬h.Descended name target ∧ h.Descended name x ∧ h.lookup? x = none := by
  cases houtcome with
  | met hchain => simp [hchain]
  | @topped top info hmissed hchain hknown hlast =>
    refine ⟨fun h => by simp at h, ?_⟩
    rintro ⟨-, hx, hunknown⟩
    rw [(isEnd_of_superName hknown hlast).unique (isEnd_of_unknown hunknown) hchain hx, hknown] at hunknown
    cases hunknown
  | @lost y hmissed hchain hunknown =>
    constructor
    · intro h
      cases h
      exact ⟨hmissed, hchain, hunknown⟩
    · rintro ⟨-, hx, hunknown'⟩
      rw [(isEnd_of_unknown hunknown).unique (isEnd_of_unknown hunknown') hchain hx]
  | turned hmissed hchain hcycle =>
    refine ⟨fun h => by simp at h, ?_⟩
    rintro ⟨-, hx, hunknown⟩
    exact absurd hcycle ((isEnd_of_unknown hunknown).not_cycle hx hchain.to_reflTransGen)

theorem cyclic_iff : (∃ x, answer = .error (.cyclic x)) ↔ ¬h.Descended name target ∧
    ∃ x, h.Descended name x ∧ Relation.TransGen h.Extends x x ∧ ¬Relation.TransGen h.Extends x target := by
  cases houtcome with
  | met hchain => simp [hchain]
  | topped hmissed hchain hknown hlast =>
    refine ⟨fun h => by simp at h, ?_⟩
    rintro ⟨-, x, hx, hcycle, -⟩
    exact absurd hcycle ((isEnd_of_superName hknown hlast).not_cycle hchain hx)
  | lost hmissed hchain hunknown =>
    refine ⟨fun h => by simp at h, ?_⟩
    rintro ⟨-, x, hx, hcycle, -⟩
    exact absurd hcycle ((isEnd_of_unknown hunknown).not_cycle hchain hx)
  | @turned x hmissed hchain hcycle =>
    refine ⟨fun _ => ⟨hmissed, x, hchain.to_reflTransGen, hcycle, fun htarget => hmissed ?_⟩,
      fun _ => ⟨x, rfl⟩⟩
    exact hchain.to_reflTransGen.trans htarget.to_reflTransGen

theorem error_of_ne (htrue : answer ≠ .ok true) (hfalse : answer ≠ .ok false) :
    (∃ x, answer = .error (.cyclic x)) ∨ ∃ x, answer = .error (.unresolved x) := by
  cases houtcome with
  | met => exact absurd rfl htrue
  | topped => exact absurd rfl hfalse
  | @lost x => exact Or.inr ⟨x, rfl⟩
  | @turned x => exact Or.inl ⟨x, rfl⟩

theorem cycle_of_cyclic {x : String} (hcyclic : answer = .error (.cyclic x)) :
    Relation.TransGen h.Extends name x ∧ Relation.TransGen h.Extends x x := by
  cases houtcome with
  | turned _ hchain hcycle =>
    cases hcyclic
    exact ⟨hchain, hcycle⟩
  | met => cases hcyclic
  | topped => cases hcyclic
  | lost => cases hcyclic

end Outcome

/-- In every hierarchy in which classes are found under their own names, however their supertypes are put
together, subtype queries and common superclasses come to an answer within one round more than there are
names, whatever was asked before. A class that is no interface is found to be a supertype exactly if it is
on the chain of superclasses. It is found not to be one exactly if the chain ends at a known class without
passing it. Else the chain runs into a cycle, of which the error names a class, or to an unknown name, which
the error tells. -/
theorem superclass_walks_exact {h : Hierarchy} (hnamed : h.Named) :
    (∀ super sub, ∃ answer, (∀ earlier, h.answerAfter earlier (h.isSubtype super sub) = answer) ∧
      Limited.isSubtype h (h.names.length + 1) super sub = .ended answer ∧
      (h.IsClass super →
        (answer = .ok true ↔ h.Descended sub super) ∧
        (answer = .ok false ↔ ¬h.Descended sub super ∧
          ∃ top info, h.Descended sub top ∧ h.lookup? top = some info ∧ info.superName = none) ∧
        (answer ≠ .ok true → answer ≠ .ok false →
          ((∃ x, answer = .error (.cyclic x)) ∨ ∃ x, answer = .error (.unresolved x)) ∧
          ((∃ x, answer = .error (.cyclic x)) ↔ ∃ x, h.Descended sub x ∧
            Relation.TransGen h.Extends x x ∧ ¬Relation.TransGen h.Extends x super)) ∧
        (∀ x, answer = .error (.cyclic x) →
          Relation.TransGen h.Extends sub x ∧ Relation.TransGen h.Extends x x) ∧
        (∀ x, answer = .error (.unresolved x) ↔
          ¬h.Descended sub super ∧ h.Descended sub x ∧ h.lookup? x = none))) ∧
    ∀ a b, ∃ answer, (∀ earlier, h.answerAfter earlier (h.commonSuperclass a b) = answer) ∧
      Limited.commonSuperclass h (h.names.length + 1) a b = .ended answer := by
  have hlimit : h.names.length < h.names.length + 1 := Nat.lt_succ_self _
  constructor
  · intro super sub
    refine ⟨_, (answers_isSubtype super sub).answerAfter, limited_isSubtype_eq hlimit super sub,
      fun hsuper => ?_⟩
    have houtcome := outcome_isSubtype hnamed hsuper sub
    refine ⟨houtcome.eq_true_iff, houtcome.eq_false_iff, fun htrue hfalse => ⟨?_, ?_⟩,
      fun x => houtcome.cycle_of_cyclic, houtcome.eq_unresolved_iff⟩
    · exact houtcome.error_of_ne htrue hfalse
    · rw [houtcome.cyclic_iff, and_iff_right (mt houtcome.eq_true_iff.mpr htrue)]
  · intro a b
    exact ⟨_, (answers_commonSuperclass a b).answerAfter, limited_commonSuperclass_eq hlimit a b⟩

theorem named_of_all
    (hall : (h.names.all fun name => (h.lookup? name).all fun info => info.name == name) = true) :
    h.Named := by
  intro name info hname
  have hcheck := List.all_eq_true.mp hall name (mem_names_of_lookup? (knows_of_lookup? hname))
  rw [hname] at hcheck
  exact beq_iff_eq.mp hcheck

theorem isEnd_root (h : Hierarchy) : h.IsEnd ClassInfo.rootName := isEnd_of_superName h.lookup?_root rfl

end Hierarchy

open Samples in
theorem superclass_walks_exact_tangle : tangle.Named ∧
    tangle.answerAfter [] (tangle.isSubtype "p/Hen" "p/Chick") = .ok true ∧
    (∃ x, tangle.answerAfter [] (tangle.isSubtype ClassInfo.rootName "p/Chick") = .error (.cyclic x) ∧
      Relation.TransGen tangle.Extends x x) ∧
    tangle.answerAfter [] (tangle.isSubtype "p/Hen" "p/Orphan") = .error (.unresolved "p/Gone") := by
  have hnamed : tangle.Named := Hierarchy.named_of_all (by decide +kernel)
  have hchick : tangle.Extends "p/Chick" "p/Egg" := ⟨_, rfl, rfl⟩
  have hegg : tangle.Extends "p/Egg" "p/Hen" := ⟨_, rfl, rfl⟩
  have hhen : tangle.Extends "p/Hen" "p/Egg" := ⟨_, rfl, rfl⟩
  have horphan : tangle.Extends "p/Orphan" "p/Gone" := ⟨_, rfl, rfl⟩
  have hgone : tangle.lookup? "p/Gone" = none := by decide +kernel
  have hisHen : tangle.IsClass "p/Hen" := ⟨_, rfl, rfl⟩
  obtain ⟨hwalks, -⟩ := Hierarchy.superclass_walks_exact hnamed
  refine ⟨hnamed, ?_, ?_, ?_⟩
  · obtain ⟨answer, hanswer, -, hexact⟩ := hwalks "p/Hen" "p/Chick"
    rw [hanswer, (hexact hisHen).1]
    exact .head hchick (.single hegg)
  · obtain ⟨answer, hanswer, -, hexact⟩ := hwalks ClassInfo.rootName "p/Chick"
    obtain ⟨htrue, hfalse, hother, hcycle, -⟩ := hexact tangle.isClass_root
    -- an end above the class excludes the cycle above it
    have hturns : ∀ top, tangle.IsEnd top → ¬tangle.Descended "p/Chick" top := fun top hend htop =>
      hend.not_cycle htop (.single hchick) (.tail (.single hegg) hhen)
    have hmissed := hturns _ tangle.isEnd_root
    obtain ⟨x, hx⟩ := (hother (fun h => hmissed (htrue.mp h)) fun h => by
      obtain ⟨-, top, info, htop, hinfo, hlast⟩ := hfalse.mp h
      exact hturns top (Hierarchy.isEnd_of_superName hinfo hlast) htop).2.mpr
        ⟨"p/Egg", .single hchick, .tail (.single hegg) hhen, fun hroot =>
          hmissed (.head hchick hroot.to_reflTransGen)⟩
    exact ⟨x, (hanswer []).trans hx, (hcycle x hx).2⟩
  · obtain ⟨answer, hanswer, -, hexact⟩ := hwalks "p/Hen" "p/Orphan"
    obtain ⟨-, -, -, -, hlost⟩ := hexact hisHen
    rw [hanswer, hlost]
    refine ⟨fun hchain => ?_, .single horphan, hgone⟩
    have hend := Hierarchy.isEnd_of_unknown hgone
    exact hend.not_cycle (.single horphan) hchain (.tail (.single hhen) hegg)

end Classmith
