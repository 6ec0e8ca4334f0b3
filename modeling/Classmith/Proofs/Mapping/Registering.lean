import Classmith.Command.Run
import Classmith.Proofs.Rename.Remapper

/-!
# Registered mappings

The renames a remapper has after a mapping set has been registered with it are those of the set; only
two different new names for one method keep a set from being registered.
-/
namespace Classmith

open MemberTable (Entry put)
open Signature (ClassTable)

namespace MappingRecord

def classRename? : MappingRecord → Option (String × String)
  | .ofClass old new => some (old, new)
  | _ => none

def fieldRename? : MappingRecord → Option Entry
  | .ofField owner descriptor old new => some ⟨owner, descriptor, old, new⟩
  | _ => none

def methodRename? : MappingRecord → Option Entry
  | .ofMethod owner descriptor old new => some ⟨owner, descriptor, old, new⟩
  | _ => none

end MappingRecord

namespace MappingSet

variable (m : MappingSet)

def classRenames : List (String × String) := m.entries.filterMap (·.record.classRename?)

def fieldRenames : List Entry := m.entries.filterMap (·.record.fieldRename?)

def methodRenames : List Entry := m.entries.filterMap (·.record.methodRename?)

/-- No two records give one method different new names. -/
def Consistent : Prop :=
  ∀ o d n a b, ⟨o, d, n, a⟩ ∈ m.methodRenames → ⟨o, d, n, b⟩ ∈ m.methodRenames → a = b

/-! ## The reversed set -/

def reverseEntry (classes : ClassTable) (e : Entry) : Entry :=
  ⟨(Signature.renameName classes e.owner).text, (Signature.renameClasses classes e.descriptor).text,
    e.new, e.name⟩

theorem classTable_eq : m.classTable = Table.ofList m.classRenames := by
  unfold classTable classRenames
  congr 2

theorem classRenames_reversed : m.reversed.classRenames = m.classRenames.map Prod.swap := by
  simp only [classRenames, reversed, List.filterMap_map, List.map_filterMap]
  congr 1
  funext e
  cases h : e.record <;> simp [h, reverseRecord, MappingRecord.classRename?]

theorem fieldRenames_reversed :
    m.reversed.fieldRenames = m.fieldRenames.map (reverseEntry m.classTable) := by
  simp only [fieldRenames, reversed, List.filterMap_map, List.map_filterMap]
  congr 1
  funext e
  cases h : e.record <;> simp [h, reverseRecord, MappingRecord.fieldRename?, reverseEntry]

theorem methodRenames_reversed :
    m.reversed.methodRenames = m.methodRenames.map (reverseEntry m.classTable) := by
  simp only [methodRenames, reversed, List.filterMap_map, List.map_filterMap]
  congr 1
  funext e
  cases h : e.record <;> simp [h, reverseRecord, MappingRecord.methodRename?, reverseEntry]

/-! ## Registering -/

/-- What a remapper has become when a list of records has been registered with it. -/
structure Registered (r r' : Remapper) (l : List MappingEntry) : Prop where
  targets : r'.targets = r.targets
  classes : r'.classes =
    (l.filterMap (·.record.classRename?)).foldl (fun t e => t.insert e.1 e.2) r.classes
  fields : r'.fields = (l.filterMap (·.record.fieldRename?)).foldl put r.fields
  methods : ∀ o d n new, r'.methods.get? o d n = some new ↔
    r.methods.get? o d n = some new ∨ ⟨o, d, n, new⟩ ∈ l.filterMap (·.record.methodRename?)
  current : r.Current → r'.Current

theorem get?_insertUnique {t t' : MemberTable} {owner descriptor name new : String}
    (h : t.insertUnique owner descriptor name new = .ok t') (o d n other : String) :
    t'.get? o d n = some other ↔
      t.get? o d n = some other ∨ (⟨o, d, n, other⟩ : Entry) = ⟨owner, descriptor, name, new⟩ := by
  unfold MemberTable.insertUnique at h
  split at h
  · rename_i existing hget
    split at h
    · rename_i hsame
      cases h
      refine ⟨Or.inl, fun hor => hor.elim id fun heq => ?_⟩
      cases heq
      rw [hget, hsame]
    · cases h
  · rename_i hnone
    cases h
    rw [MemberTable.get?_insert]
    by_cases hkey : o = owner ∧ d = descriptor ∧ n = name
    · obtain ⟨rfl, rfl, rfl⟩ := hkey
      simp [hnone, eq_comm]
    · rw [if_neg hkey]
      refine ⟨Or.inl, fun hor => hor.elim id fun heq => ?_⟩
      cases heq
      simp at hkey

theorem registered_of_registerAll {l : List MappingEntry} {r r' : Remapper}
    (h : registerAll r l = (.ok (), r')) : Registered r r' l := by
  induction l generalizing r with
  | nil =>
    cases h
    exact ⟨rfl, rfl, rfl, by simp, id⟩
  | cons e rest ih =>
    rw [registerAll] at h
    cases hrecord : e.record with
    | ofClass old new =>
      rw [hrecord] at h
      have hrest := ih h
      refine ⟨hrest.targets, ?_, ?_, ?_, hrest.current⟩
      · rw [hrest.classes]
        simp [hrecord, MappingRecord.classRename?, Remapper.renameClass]
      · rw [hrest.fields]
        simp [hrecord, MappingRecord.fieldRename?, Remapper.renameClass]
      · intro o d n other
        rw [hrest.methods]
        simp [hrecord, MappingRecord.methodRename?, Remapper.renameClass]
    | ofField owner descriptor old new =>
      rw [hrecord] at h
      have hrest := ih h
      refine ⟨hrest.targets, ?_, ?_, ?_, fun _ => hrest.current (fun hstale => by cases hstale)⟩
      · rw [hrest.classes]
        simp [hrecord, MappingRecord.classRename?, Remapper.renameField]
      · rw [hrest.fields]
        simp [hrecord, MappingRecord.fieldRename?, Remapper.renameField, put]
      · intro o d n other
        rw [hrest.methods]
        simp [hrecord, MappingRecord.methodRename?, Remapper.renameField]
    | ofMethod owner descriptor old new =>
      rw [hrecord, register, Remapper.renameMethod] at h
      cases hunique : r.methods.insertUnique owner descriptor old new with
      | error e => simp [hunique, Except.map] at h
      | ok methods =>
        simp only [hunique, Except.map] at h
        have hrest := ih h
        refine ⟨hrest.targets, ?_, ?_, ?_, hrest.current⟩
        · rw [hrest.classes]
          simp [hrecord, MappingRecord.classRename?]
        · rw [hrest.fields]
          simp [hrecord, MappingRecord.fieldRename?]
        · intro o d n other
          rw [hrest.methods, get?_insertUnique hunique]
          simp [hrecord, MappingRecord.methodRename?, or_assoc]

theorem registerAll_of_consistent {l : List MappingEntry} {r : Remapper}
    (h : ∀ o d n a b,
      (r.methods.get? o d n = some a ∨ ⟨o, d, n, a⟩ ∈ l.filterMap (·.record.methodRename?)) →
      (r.methods.get? o d n = some b ∨ ⟨o, d, n, b⟩ ∈ l.filterMap (·.record.methodRename?)) →
        a = b) :
    ∃ r', registerAll r l = (.ok (), r') := by
  induction l generalizing r with
  | nil => exact ⟨r, rfl⟩
  | cons e rest ih =>
    rw [registerAll]
    cases hrecord : e.record with
    | ofClass old new =>
      apply ih
      simpa [hrecord, MappingRecord.methodRename?, Remapper.renameClass] using h
    | ofField owner descriptor old new =>
      apply ih
      simpa [hrecord, MappingRecord.methodRename?, Remapper.renameField] using h
    | ofMethod owner descriptor old new =>
      simp only [hrecord, MappingRecord.methodRename?, List.filterMap_cons, List.mem_cons] at h
      have hunique : ∃ methods, r.methods.insertUnique owner descriptor old new = .ok methods := by
        unfold MemberTable.insertUnique
        split
        · rename_i existing hget
          have hsame := h owner descriptor old existing new (Or.inl hget) (Or.inr (Or.inl rfl))
          exact ⟨r.methods, if_pos hsame⟩
        · exact ⟨_, rfl⟩
      obtain ⟨methods, hunique⟩ := hunique
      simp only [register, Remapper.renameMethod, hunique, Except.map]
      apply ih
      intro o d n a b ha hb
      rw [get?_insertUnique hunique] at ha hb
      rw [or_assoc] at ha hb
      exact h o d n a b ha hb

end MappingSet

/-! ## Preparing a remapper -/

/-- A remapper holds the given classes and the renames of a mapping set, and nothing else. -/
structure Remapper.Holds (r : Remapper) (classes : List Class) (m : MappingSet) : Prop where
  targets : r.targets.classes = classes
  classes : r.classes = m.classTable
  fields : r.fields = m.fieldRenames.foldl put MemberTable.empty
  methods : ∀ o d n new, r.methods.get? o d n = some new ↔ ⟨o, d, n, new⟩ ∈ m.methodRenames
  current : r.Current

namespace MappingSet

variable {m : MappingSet} {r r' : Remapper}

theorem holds_of_apply (h : m.apply r = (.ok (), r')) (hclasses : r.classes = Table.empty)
    (hfields : r.fields = MemberTable.empty) (hmethods : r.methods = MemberTable.empty)
    (hcurrent : r.Current) : r'.Holds r.targets.classes m := by
  have hall := registered_of_registerAll h
  refine ⟨by rw [hall.targets], ?_, ?_, ?_, hall.current hcurrent⟩
  · rw [hall.classes, hclasses, classTable_eq]
    rfl
  · rw [hall.fields, hfields]
    rfl
  · intro o d n new
    rw [hall.methods, hmethods]
    simp [methodRenames]

theorem exists_apply (h : m.Consistent) (hmethods : r.methods = MemberTable.empty) :
    ∃ r', m.apply r = (.ok (), r') := by
  apply registerAll_of_consistent
  intro o d n a b ha hb
  rw [hmethods] at ha hb
  simp only [MemberTable.get?_empty, reduceCtorEq, false_or] at ha hb
  exact h o d n a b ha hb

theorem consistent_of_holds {classes : List Class} (h : r.Holds classes m) : m.Consistent := by
  intro o d n a b ha hb
  have ha := (h.methods o d n a).mpr ha
  have hb := (h.methods o d n b).mpr hb
  rw [ha] at hb
  exact Option.some.inj hb

end MappingSet

namespace Command

theorem prepare_eq {classes : List Class} (hnodup : (classes.map (·.name)).Nodup)
    (m : MappingSet) : ∃ start : Remapper, start.targets.classes = classes ∧
      start.classes = Table.empty ∧ start.fields = MemberTable.empty ∧
      start.methods = MemberTable.empty ∧ start.Current ∧
      prepare classes m = match m.apply start with
        | (.error conflict, _) => .error ⟨[.applyMapping conflict.line], .error conflict.error⟩
        | (.ok (), r) => .ok r := by
  obtain ⟨start, hadd, hclasses, hrest⟩ := Remapper.addTargets_of_nodup hnodup
    (r := Remapper.new) (fun c _ => rfl) (Remapper.current_withTargets Pool.empty)
  refine ⟨start, hclasses, hrest.1, hrest.2.1, hrest.2.2.1, hrest.2.2.2, ?_⟩
  rcases happly : m.apply start with ⟨conflict | _, r⟩ <;> simp only [prepare, hadd, happly]

/-- Classes with different names and a set that does not contradict itself can be prepared. -/
theorem prepare_of_consistent {classes : List Class} (hnodup : (classes.map (·.name)).Nodup)
    {m : MappingSet} (hconsistent : m.Consistent) :
    ∃ r, prepare classes m = .ok r ∧ r.Holds classes m := by
  obtain ⟨start, rfl, hclasses, hfields, hmethods, hcurrent, hprepare⟩ := prepare_eq hnodup m
  obtain ⟨r, happly⟩ := MappingSet.exists_apply hconsistent hmethods
  refine ⟨r, by rw [hprepare, happly], ?_⟩
  exact MappingSet.holds_of_apply happly hclasses hfields hmethods hcurrent

theorem prepare_of_not_consistent {classes : List Class} (hnodup : (classes.map (·.name)).Nodup)
    {m : MappingSet} (hconsistent : ¬m.Consistent) : ∃ failure, prepare classes m = .error failure := by
  obtain ⟨start, rfl, hclasses, hfields, hmethods, hcurrent, hprepare⟩ := prepare_eq hnodup m
  rcases happly : m.apply start with ⟨conflict | _, r⟩
  · exact ⟨_, by rw [hprepare, happly]⟩
  · have hholds := MappingSet.holds_of_apply happly hclasses hfields hmethods hcurrent
    exact absurd (MappingSet.consistent_of_holds hholds) hconsistent

end Command

end Classmith
