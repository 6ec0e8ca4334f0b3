import Classmith.Proofs.Rename.Propagation

/-!
# Answers of a remapper in use

A remapper that has been through any number of operations answers as a new one does that is given its
classes and the field renames registered since its last pass.
-/
namespace Classmith

open MemberTable (Entry put)
open Remapper (Operation run)

/-- The field renames in force after an operation: a pass uses them up. -/
def noteRename (renames : List Entry) : Operation → List Entry
  | .renameField owner descriptor old new => renames ++ [⟨owner, descriptor, old, new⟩]
  | .process => []
  | _ => renames

/-- The field renames registered since the last pass, in the order of their registration. -/
def renamesInForce (operations : List Operation) : List Entry := operations.foldl noteRename []

namespace Remapper

theorem fields_addTarget {r r' : Remapper} {c : Class} (h : r.addTarget c = .ok r') :
    r'.fields = r.fields := by
  unfold addTarget at h
  cases hinsert : r.targets.insert c with
  | error e => simp [hinsert, Except.map] at h
  | ok targets =>
    simp only [hinsert, Except.map, Except.ok.injEq] at h
    rw [← h]

theorem fields_addTargets (r : Remapper) (classes : List Class) :
    (r.addTargets classes).2.fields = r.fields := by
  induction classes generalizing r with
  | nil => rfl
  | cons c rest ih =>
    rw [addTargets]
    cases hadd : r.addTarget c with
    | error e => rfl
    | ok r' =>
      show (r'.addTargets rest).2.fields = r.fields
      rw [ih r', fields_addTarget hadd]

theorem fields_refresh (r : Remapper) : r.refresh.fields = r.fields := by
  unfold refresh
  split <;> rfl

theorem fields_process (r : Remapper) : r.process.2.fields = MemberTable.empty := by
  unfold process
  simp only
  split <;> rfl

/-- An operation does to the table of field renames what it does to their list. -/
theorem fields_perform {r : Remapper} {renames : List Entry}
    (h : r.fields = renames.foldl put MemberTable.empty) (operation : Operation) :
    (r.perform operation).fields = (noteRename renames operation).foldl put MemberTable.empty := by
  cases operation with
  | addTarget c =>
    simp only [perform, noteRename]
    cases hadd : r.addTarget c with
    | error e => exact h
    | ok r' => exact (fields_addTarget hadd).trans h
  | addTargets classes => exact (r.fields_addTargets classes).trans h
  | removeTarget name =>
    simp only [perform, noteRename, removeTarget?]
    cases r.targets.remove? name <;> exact h
  | clearTargets => exact h
  | renameClass old new => exact h
  | renameField owner descriptor old new =>
    simp only [perform, noteRename, renameField, List.foldl_append, ← h]
    rfl
  | renameMethod owner descriptor old new =>
    simp only [perform, noteRename, renameMethod]
    cases r.methods.insertUnique owner descriptor old new <;> exact h
  | removeMethodRename owner descriptor name => exact h
  | followOuterClasses => exact h
  | fieldName owner descriptor name => exact r.fields_refresh.trans h
  | process => exact r.fields_process

theorem fields_run (operations : List Operation) :
    (run operations).fields = (renamesInForce operations).foldl put MemberTable.empty := by
  suffices h : ∀ (r : Remapper) (renames : List Entry),
      r.fields = renames.foldl put MemberTable.empty →
      (operations.foldl perform r).fields =
        (operations.foldl noteRename renames).foldl put MemberTable.empty from h new [] rfl
  induction operations with
  | nil => exact fun r renames hr => hr
  | cons operation rest ih => exact fun r renames hr => ih _ _ (fields_perform hr operation)

end Remapper

/-- Field renames that bind the same fields to the same names give the same table. -/
theorem foldl_put_congr {first second : List Entry}
    (h : ∀ o d n, (first.foldl put MemberTable.empty).get? o d n =
      (second.foldl put MemberTable.empty).get? o d n) :
    first.foldl put MemberTable.empty = second.foldl put MemberTable.empty :=
  (MemberTable.trim_empty.foldl_put first).ext (MemberTable.trim_empty.foldl_put second) h

/-- Whatever was done to a remapper, inherited renames that are not marked as out of date are those that
would be worked out from its classes and field renames. So it answers every question for a field as a new
remapper does that is given the same classes, if their names differ, and the same field renames: those
registered since the last pass, or any others that bind the same fields to the same names. -/
theorem inherited_never_stale (operations : List Operation) :
    ((run operations).stale = false → (run operations).inherited =
      inheritedFields (run operations).targets.classes (run operations).fields) ∧
    (run operations).fields = (renamesInForce operations).foldl put MemberTable.empty ∧
    ((run operations).targets.names.Nodup → ∀ renames : List Entry,
      (∀ o d n, (renames.foldl put MemberTable.empty).get? o d n =
        (run operations).fields.get? o d n) →
      (run (registration (run operations).targets.classes renames)).targets.classes =
        (run operations).targets.classes ∧
      ∀ o d n, ((run operations).fieldName? o d n).1 =
        ((run (registration (run operations).targets.classes renames)).fieldName? o d n).1) := by
  have hcurrent := Remapper.current_run operations
  have hfields := Remapper.fields_run operations
  refine ⟨hcurrent, hfields, ?_⟩
  intro hnodup renames hsame
  have htable : renames.foldl put MemberTable.empty = (run operations).fields := by
    rw [hfields]
    apply foldl_put_congr
    intro o d n
    rw [hsame, hfields]
  obtain ⟨fresh, hrun, hclasses, -, -, hregistered⟩ := Remapper.run_registration hnodup renames
  have hfresh := Remapper.current_run (registration (run operations).targets.classes renames)
  rw [hrun] at hfresh ⊢
  refine ⟨hclasses, ?_⟩
  intro o d n
  rw [hcurrent.fieldName?, hfresh.fieldName?, hclasses, hregistered, htable]

namespace Samples

/-- The list of classes breaks off at a repeated one, the pass fails because two classes end up with one
name, and one of them is taken out under the name that it had. -/
def troubledUse : List Operation :=
  [.addTargets [top, middle, bottom, top], .renameClass "p/A" "p/B", .renameField "p/A" "I" "f" "x",
    .fieldName "p/C" "I" "f", .process, .removeTarget "p/A", .renameField "p/B" "I" "x" "y",
    .renameField "p/B" "I" "x" "z", .fieldName "p/C" "I" "x"]

end Samples

theorem inherited_never_stale_troubledUse :
    (run Samples.troubledUse).stale = false ∧
    (run Samples.troubledUse).inherited = inheritedFields (run Samples.troubledUse).targets.classes
      (run Samples.troubledUse).fields ∧
    (run Samples.troubledUse).targets.names = ["p/B", "p/C"] ∧
    ((run Samples.troubledUse).fieldName? "p/C" "I" "x").1 = some "z" ∧
    ((run (registration (run Samples.troubledUse).targets.classes
      [⟨"p/B", "I", "x", "z"⟩])).fieldName? "p/C" "I" "x").1 = some "z" := by
  have hnames : (run Samples.troubledUse).targets.names = ["p/B", "p/C"] := by decide +kernel
  have hstale : (run Samples.troubledUse).stale = false := by decide +kernel
  have hanswer : ((run Samples.troubledUse).fieldName? "p/C" "I" "x").1 = some "z" := by
    decide +kernel
  obtain ⟨hcurrent, hfields, hnew⟩ := inherited_never_stale Samples.troubledUse
  have hnodup : (run Samples.troubledUse).targets.names.Nodup := by
    rw [hnames]
    decide
  have hrenames : ∀ o d n, ([⟨"p/B", "I", "x", "z"⟩].foldl put MemberTable.empty).get? o d n =
      (run Samples.troubledUse).fields.get? o d n := by
    intro o d n
    rw [hfields]
    simp only [Samples.troubledUse, renamesInForce, noteRename, List.foldl_cons, List.foldl_nil,
      List.nil_append, List.cons_append, put, MemberTable.get?_insert]
    split <;> rfl
  have hsame := (hnew hnodup _ hrenames).2 "p/C" "I" "x"
  rw [hanswer] at hsame
  exact ⟨hstale, hcurrent hstale, hnames, hanswer, hsame.symm⟩

end Classmith
