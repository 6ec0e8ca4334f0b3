import Classmith.Proofs.Rename.Remapper
import Classmith.Rename.InnerClasses

/-!
# Remappers in use

The operations on a remapper and the states they lead to. Whatever is done to a remapper, the inherited
field renames that it answers from are those of the classes and field renames it holds.
-/
namespace Classmith.Remapper

inductive Operation where
  | addTarget (c : Class)
  | addTargets (classes : List Class)
  | removeTarget (name : String)
  | clearTargets
  | renameClass (old new : String)
  | renameField (owner descriptor old new : String)
  | renameMethod (owner descriptor old new : String)
  | removeMethodRename (owner descriptor name : String)
  | followOuterClasses
  /-- Asking for the new name of a field, which may work out the inherited renames. -/
  | fieldName (owner descriptor name : String)
  | process

/-- The state after an operation. One that fails keeps what was done before it failed. -/
def perform (r : Remapper) : Operation → Remapper
  | .addTarget c => (r.addTarget c).toOption.getD r
  | .addTargets classes => (r.addTargets classes).2
  | .removeTarget name => ((r.removeTarget? name).map Prod.snd).getD r
  | .clearTargets => r.clearTargets
  | .renameClass old new => r.renameClass old new
  | .renameField owner descriptor old new => r.renameField owner descriptor old new
  | .renameMethod owner descriptor old new =>
    (r.renameMethod owner descriptor old new).toOption.getD r
  | .removeMethodRename owner descriptor name => r.removeMethodRename owner descriptor name
  | .followOuterClasses => r.followOuterClasses.1
  | .fieldName owner descriptor name => (r.fieldName? owner descriptor name).2
  | .process => r.process.2

/-- The state of a new remapper after some operations. -/
def run (operations : List Operation) : Remapper := operations.foldl perform new

theorem current_of_stale {r : Remapper} (h : r.stale = true) : r.Current := by
  intro hfresh
  rw [h] at hfresh
  cases hfresh

theorem Current.addTarget {r r' : Remapper} {c : Class} (h : r.addTarget c = .ok r') :
    r'.Current := by
  unfold Remapper.addTarget at h
  cases hinsert : r.targets.insert c with
  | error e => simp [hinsert, Except.map] at h
  | ok targets =>
    simp only [hinsert, Except.map, Except.ok.injEq] at h
    exact current_of_stale (by rw [← h])

theorem Current.addTargets {r : Remapper} (h : r.Current) (classes : List Class) :
    (r.addTargets classes).2.Current := by
  induction classes generalizing r with
  | nil => exact h
  | cons c rest ih =>
    rw [Remapper.addTargets]
    cases hadd : r.addTarget c with
    | error e => exact h
    | ok r' => exact ih (Current.addTarget hadd)

theorem Current.refresh {r : Remapper} (h : r.Current) : r.refresh.Current := by
  unfold Remapper.refresh
  cases hstale : r.stale with
  | true => exact fun _ => rfl
  | false => exact h

theorem Current.process (r : Remapper) : r.process.2.Current := by
  unfold Remapper.process
  simp only
  split
  · exact current_withTargets _
  · exact current_withTargets _

theorem Current.perform {r : Remapper} (h : r.Current) (operation : Operation) :
    (r.perform operation).Current := by
  cases operation with
  | addTarget c =>
    simp only [Remapper.perform]
    cases hadd : r.addTarget c with
    | error e => exact h
    | ok r' => exact Current.addTarget hadd
  | addTargets classes => exact h.addTargets classes
  | removeTarget name =>
    simp only [Remapper.perform, removeTarget?]
    cases r.targets.remove? name with
    | none => exact h
    | some removed => exact current_of_stale rfl
  | clearTargets => exact current_of_stale rfl
  | renameClass old new => exact h
  | renameField owner descriptor old new => exact current_of_stale rfl
  | renameMethod owner descriptor old new =>
    simp only [Remapper.perform, Remapper.renameMethod]
    cases r.methods.insertUnique owner descriptor old new with
    | error e => exact h
    | ok methods => exact h
  | removeMethodRename owner descriptor name => exact h
  | followOuterClasses => exact h
  | fieldName owner descriptor name => exact h.refresh
  | process => exact Current.process r

theorem current_run (operations : List Operation) : (run operations).Current := by
  suffices h : ∀ r : Remapper, r.Current → (operations.foldl Remapper.perform r).Current from
    h new (current_withTargets Pool.empty)
  induction operations with
  | nil => exact fun r hr => hr
  | cons operation rest ih => exact fun r hr => ih _ (hr.perform operation)

theorem Current.fieldName? {r : Remapper} (h : r.Current) (owner descriptor name : String) :
    (r.fieldName? owner descriptor name).1 =
      (inheritedFields r.targets.classes r.fields).get? owner descriptor name :=
  congrArg (fun table => table.get? owner descriptor name) h.pending_fields

end Classmith.Remapper
