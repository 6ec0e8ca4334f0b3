import Classmith.Proofs.Hierarchy.Rounds

/-!
# Searches for interfaces

A search for the interfaces of a class ends in every hierarchy. It fails only where it must, on a name above
the class that no source knows or that lies on a cycle, and the error names it; a diamond is not taken for a
cycle. What was remembered from earlier searches, also from those that failed, changes nothing.
-/
namespace Classmith

namespace ClassInfo

variable {inherit : String → Except Error NameSet}

theorem foldlM_listInterface_error {l : List String} {start : NameSet} {e : Error}
    (h : l.foldlM (listInterface inherit) start = .error e) : ∃ above ∈ l, inherit above = .error e := by
  induction l generalizing start with
  | nil => cases h
  | cons head rest ih =>
    rw [List.foldlM_cons, listInterface] at h
    cases hhead : inherit head with
    | error e' =>
      rw [hhead] at h
      cases h
      exact ⟨head, List.mem_cons_self, hhead⟩
    | ok t =>
      rw [hhead] at h
      obtain ⟨above, habove, herror⟩ := ih h
      exact ⟨above, List.mem_cons_of_mem head habove, herror⟩

/-- Putting a closure together fails only as the search at a supertype does. -/
theorem closure_error {info : ClassInfo} {e : Error} (h : info.closure inherit = .error e) :
    ∃ above ∈ info.supertypes, inherit above = .error e := by
  rw [closure] at h
  cases hfold : info.interfaces.foldlM (listInterface inherit)
      (if info.isInterface then NameSet.ofNames [info.name] else Table.empty) with
  | error e' =>
    rw [hfold] at h
    cases h
    obtain ⟨above, habove, herror⟩ := foldlM_listInterface_error hfold
    exact ⟨above, mem_supertypes.mpr (Or.inr habove), herror⟩
  | ok declared =>
    rw [hfold] at h
    cases hsuper : info.superName with
    | none =>
      rw [hsuper] at h
      cases h
    | some top =>
      refine ⟨top, mem_supertypes.mpr (Or.inl hsuper), ?_⟩
      rw [hsuper] at h
      cases htop : inherit top with
      | error e' =>
        simp only [Option.elim_some, htop] at h
        cases h
        rfl
      | ok t =>
        simp only [Option.elim_some, htop] at h
        cases h

end ClassInfo

namespace Hierarchy

variable {h : Hierarchy}

/-- The error tells what is wrong with the name: no source knows it, or it lies on a cycle. -/
def Blames (h : Hierarchy) (name : String) (e : Error) : Prop :=
  h.lookup? name = none ∧ e = .unresolved name ∨
    Relation.TransGen h.DirectlyBelow name name ∧ e = .cyclic name

/-- The search has come to a name that it may not visit any more from that very name. -/
theorem OnPath.blames {remaining : List String} {name : String} {e : Error} (hpath : h.OnPath remaining name)
    (he : Plain.collect h remaining name = .error e) : ∃ above, h.Below name above ∧ h.Blames above e := by
  induction remaining using without_induction generalizing name with
  | step remaining ih =>
    cases hname : h.lookup? name with
    | none =>
      rw [Plain.collect_of_unknown hname] at he
      cases he
      exact ⟨name, .refl, Or.inl ⟨hname, rfl⟩⟩
    | some info =>
      by_cases hmem : name ∈ remaining
      · rw [Plain.collect_of_mem hname hmem] at he
        obtain ⟨next, hnext, herror⟩ := ClassInfo.closure_error he
        have hstep : h.DirectlyBelow name next := ⟨info, hname, hnext⟩
        obtain ⟨above, hbelow, hblames⟩ := ih name hmem (hpath.step hstep) herror
        exact ⟨above, .head hstep hbelow, hblames⟩
      · rw [Plain.collect_of_notMem hname hmem] at he
        cases he
        exact ⟨name, .refl, Or.inr ⟨hpath name (knows_of_lookup? hname) hmem, rfl⟩⟩

/-- A search may visit all names at first, so it succeeds exactly from a grounded class. -/
theorem exists_collect_iff {name : String} :
    (∃ s, Plain.collect h h.names name = .ok s) ↔ h.Grounded name := by
  constructor
  · rintro ⟨s, hs⟩
    exact (Plain.collect_ok hs).2.1
  · intro hground
    exact Plain.exists_collect hground fun above hbelow => mem_names_of_lookup? (hground.known above hbelow)

/-- Whatever was asked before, the search for the interfaces of a class ends, at most one level deeper than
there are names. It succeeds exactly if every name above the class is known and none lies on a cycle, and
then it finds the classes above that are interfaces and the names that classes above list, and nothing else.
If it fails, the error names one of the names above that are not known or lie on a cycle. -/
theorem allInterfaces_exact (h : Hierarchy) (earlier : List Call) (name : String) :
    Limited.collect h (h.names.length + 1) [] name =
      .ended (h.answerAfter earlier (h.allInterfaces name)) ∧
    ((∃ s, h.answerAfter earlier (h.allInterfaces name) = .ok s) ↔
      (∀ above, h.Below name above → h.Knows above) ∧
        ∀ above, h.Below name above → ¬Relation.TransGen h.DirectlyBelow above above) ∧
    (∀ s, h.answerAfter earlier (h.allInterfaces name) = .ok s → ∀ i, s.contains i = true ↔
      ∃ above info, h.Below name above ∧ h.lookup? above = some info ∧
        (info.isInterface = true ∧ info.name = i ∨ i ∈ info.interfaces)) ∧
    (∀ e, h.answerAfter earlier (h.allInterfaces name) = .error e →
      ∃ above, h.Below name above ∧ h.Blames above e) := by
  rw [(answers_allInterfaces name).answerAfter]
  refine ⟨h.splits_names.collect_eq (Nat.lt_succ_self _) name, ?_, ?_, ?_⟩
  · rw [exists_collect_iff]
    exact ⟨fun hground => ⟨hground.known, hground.acyclic⟩, fun ⟨hknown, hacyclic⟩ => ⟨hknown, hacyclic⟩⟩
  · intro s hs
    exact (Plain.collect_ok hs).2.2
  · intro e he
    exact (onPath_of_names (fun _ => Iff.rfl) name).blames he

end Hierarchy

namespace Samples

/-- An interface that is reached on two ways, a class below a cycle and one below a name that is missing. -/
def tangle : Hierarchy where
  pool := (Pool.ofClasses [
    { name := "p/Top", access := 0x0601, superName := some "java/lang/Object" },
    { name := "p/Left", access := 0x0601, superName := some "java/lang/Object", interfaces := ["p/Top"] },
    { name := "p/Right", access := 0x0601, superName := some "java/lang/Object", interfaces := ["p/Top"] },
    { name := "p/Both", superName := some "java/lang/Object", interfaces := ["p/Left", "p/Right"] },
    { name := "p/Egg", superName := some "p/Hen" },
    { name := "p/Hen", superName := some "p/Egg" },
    { name := "p/Chick", superName := some "p/Egg", interfaces := ["p/Top"] },
    { name := "p/Orphan", superName := some "p/Gone" }]).toOption.getD Pool.empty
  loader := Loader.empty

end Samples

open Samples in
theorem allInterfaces_exact_tangle :
    (∃ s, tangle.answerAfter [.allInterfaces "p/Chick"] (tangle.allInterfaces "p/Both") = .ok s ∧
      s.toNames = ["p/Left", "p/Right", "p/Top"] ∧
      ∀ i, s.contains i = true ↔ ∃ above info, tangle.Below "p/Both" above ∧
        tangle.lookup? above = some info ∧
        (info.isInterface = true ∧ info.name = i ∨ i ∈ info.interfaces)) ∧
    ¬∃ s, tangle.answerAfter [.allInterfaces "p/Both"] (tangle.allInterfaces "p/Chick") = .ok s := by
  constructor
  · obtain ⟨-, -, hcontent, -⟩ :=
      Hierarchy.allInterfaces_exact tangle [.allInterfaces "p/Chick"] "p/Both"
    have hrun : (tangle.answerAfter [.allInterfaces "p/Chick"]
        (tangle.allInterfaces "p/Both")).toOption.map (fun s => s.toNames) =
          some ["p/Left", "p/Right", "p/Top"] := by
      decide +kernel
    cases hanswer : tangle.answerAfter [.allInterfaces "p/Chick"] (tangle.allInterfaces "p/Both") with
    | error e =>
      rw [hanswer] at hrun
      cases hrun
    | ok s =>
      rw [hanswer] at hrun
      exact ⟨s, rfl, Option.some.inj hrun, hcontent s hanswer⟩
  · obtain ⟨-, hsucceeds, -, -⟩ :=
      Hierarchy.allInterfaces_exact tangle [.allInterfaces "p/Both"] "p/Chick"
    rw [hsucceeds]
    rintro ⟨-, hacyclic⟩
    refine hacyclic "p/Egg" (.single (by decide +kernel)) ?_
    exact .tail (b := "p/Hen") (.single (by decide +kernel)) (by decide +kernel)

end Classmith
