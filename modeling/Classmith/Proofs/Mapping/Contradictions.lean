import Classmith.Proofs.Mapping.Registering
import Mathlib.Data.List.Induction

/-!
# Contradictory mappings

Of two records for a class or a field the later one counts, but of a method there may be only one new name. A mapping
set is registered up to the first record that contradicts an earlier one, and as a whole if there is none, in whatever
order its records stand.
-/
namespace Classmith

/-- The records rename one method differently. -/
def MappingRecord.Contradicts (a b : MappingRecord) : Prop :=
  ∃ owner descriptor old new other,
    a = .ofMethod owner descriptor old new ∧ b = .ofMethod owner descriptor old other ∧ new ≠ other

namespace MappingSet

/-! ## The records of a key -/

/-- Of the records with a key, which is a record that lacks its new name, the last one has this new name. -/
def LastNames (l : List MappingEntry) (key : String → MappingRecord) (new : String) : Prop :=
  ∃ before line after, l = before ++ ⟨line, key new⟩ :: after ∧ ∀ e ∈ after, ∀ other, e.record ≠ key other

/-- At most one of the records has the key. -/
def Once (l : List MappingEntry) (key : String → MappingRecord) : Prop :=
  l.Pairwise fun e e' => ∀ new other, e.record = key new → e'.record ≠ key other

theorem not_lastNames_nil (key : String → MappingRecord) (new : String) : ¬LastNames [] key new := by
  rintro ⟨before, line, after, hl, -⟩
  simp at hl

theorem lastNames_concat {l : List MappingEntry} {e : MappingEntry} {key : String → MappingRecord} {new : String} :
    LastNames (l ++ [e]) key new ↔ e.record = key new ∨ LastNames l key new ∧ ∀ other, e.record ≠ key other := by
  constructor
  · rintro ⟨before, line, after, hl, hafter⟩
    rcases List.eq_nil_or_concat after with rfl | ⟨after, e', rfl⟩
    · obtain ⟨-, he⟩ := List.append_inj' hl rfl
      cases he
      exact .inl rfl
    · rw [List.concat_eq_append] at hl hafter
      rw [← List.cons_append, ← List.append_assoc] at hl
      obtain ⟨rfl, he⟩ := List.append_inj' hl rfl
      cases he
      refine .inr ⟨⟨before, line, after, rfl, fun e' he' => hafter e' (List.mem_append_left _ he')⟩, ?_⟩
      exact hafter e (List.mem_append_right _ List.mem_cons_self)
  · rintro (he | ⟨⟨before, line, after, rfl, hafter⟩, he⟩)
    · refine ⟨l, e.line, [], ?_, List.forall_mem_nil _⟩
      rw [← he]
    · refine ⟨before, line, after ++ [e], by simp, ?_⟩
      intro e' he'
      rcases List.mem_append.mp he' with hin | hin
      · exact hafter e' hin
      · obtain rfl := List.mem_singleton.mp hin
        exact he

/-- The only record of a key is its last. -/
theorem Once.lastNames_iff {l : List MappingEntry} {key : String → MappingRecord} (h : Once l key) (new : String) :
    LastNames l key new ↔ ∃ e ∈ l, e.record = key new := by
  constructor
  · rintro ⟨before, line, after, rfl, -⟩
    exact ⟨⟨line, key new⟩, by simp, rfl⟩
  · rintro ⟨⟨line, record⟩, hmem, rfl⟩
    obtain ⟨before, after, rfl⟩ := List.append_of_mem hmem
    refine ⟨before, line, after, rfl, ?_⟩
    intro e he other
    exact (List.pairwise_cons.mp (List.pairwise_append.mp h).2.1).1 e he new other rfl

theorem Once.perm {l l' : List MappingEntry} {key : String → MappingRecord} (h : Once l key) (hperm : l.Perm l') :
    Once l' key := by
  refine (hperm.pairwise_iff ?_).mp h
  intro e e' hnot new other he' he
  exact hnot other new he he'

/-! ## Registering a record -/

/-- What registering a record does to each table. -/
structure Registers (record : MappingRecord) (r r' : Remapper) : Prop where
  classes : ∀ old new, r'.classes.get? old = some new ↔
    record = .ofClass old new ∨ r.classes.get? old = some new ∧ ∀ other, record ≠ .ofClass old other
  fields : ∀ owner descriptor old new, r'.fields.get? owner descriptor old = some new ↔
    record = .ofField owner descriptor old new ∨
      r.fields.get? owner descriptor old = some new ∧ ∀ other, record ≠ .ofField owner descriptor old other
  methods : ∀ owner descriptor old new, r'.methods.get? owner descriptor old = some new ↔
    record = .ofMethod owner descriptor old new ∨ r.methods.get? owner descriptor old = some new
  trimFields : r.fields.Trim → r'.fields.Trim
  trimMethods : r.methods.Trim → r'.methods.Trim

theorem trim_insertUnique {t t' : MemberTable} {owner descriptor name new : String} (ht : t.Trim)
    (h : t.insertUnique owner descriptor name new = .ok t') : t'.Trim := by
  unfold MemberTable.insertUnique at h
  split at h
  · split at h
    · cases h
      exact ht
    · cases h
  · cases h
    exact ht.insert owner descriptor name new

theorem registers_of_register {record : MappingRecord} {r r' : Remapper} (h : register r record = .ok r') :
    Registers record r r' := by
  cases record with
  | ofClass name renamed =>
    cases h
    refine ⟨?_, by simp [Remapper.renameClass], by simp [Remapper.renameClass], id, id⟩
    intro old new
    by_cases hname : old = name
    · simp [Remapper.renameClass, hname]
    · simp [Remapper.renameClass, hname, Ne.symm hname]
  | ofField owner descriptor name renamed =>
    cases h
    refine ⟨by simp [Remapper.renameField], ?_, by simp [Remapper.renameField], ?_, id⟩
    · intro o d n new
      simp only [Remapper.renameField, MemberTable.get?_insert, MappingRecord.ofField.injEq]
      by_cases hkey : o = owner ∧ d = descriptor ∧ n = name
      · obtain ⟨rfl, rfl, rfl⟩ := hkey
        simp
      · grind
    · intro htrim
      exact htrim.insert owner descriptor name renamed
  | ofMethod owner descriptor name renamed =>
    rw [register, Remapper.renameMethod] at h
    cases hunique : r.methods.insertUnique owner descriptor name renamed with
    | error error => simp [hunique, Except.map] at h
    | ok methods =>
      rw [hunique] at h
      cases h
      refine ⟨by simp, by simp, ?_, id, fun htrim => trim_insertUnique htrim hunique⟩
      intro o d n new
      rw [get?_insertUnique hunique, or_comm]
      simp [eq_comm]

/-- A record that cannot be registered contradicts a rename of a method. -/
theorem exists_of_register_error {record : MappingRecord} {r : Remapper} {error : Error}
    (h : register r record = .error error) : ∃ owner descriptor old existing requested,
      record = .ofMethod owner descriptor old requested ∧
      r.methods.get? owner descriptor old = some existing ∧ existing ≠ requested ∧
      error = .conflict owner descriptor old existing requested := by
  cases record with
  | ofClass name renamed => cases h
  | ofField owner descriptor name renamed => cases h
  | ofMethod owner descriptor name renamed =>
    rw [register, Remapper.renameMethod, MemberTable.insertUnique] at h
    cases hget : r.methods.get? owner descriptor name with
    | none => simp [hget, Except.map] at h
    | some existing =>
      rw [hget] at h
      by_cases hsame : existing = renamed
      · simp [hsame, Except.map] at h
      · simp only [if_neg hsame, Except.map, Except.error.injEq] at h
        exact ⟨owner, descriptor, name, existing, renamed, rfl, hget, hsame, h.symm⟩

/-! ## Registering a list -/

theorem exists_of_registerAll_concat {l : List MappingEntry} {e : MappingEntry} {r r' : Remapper}
    (h : registerAll r (l ++ [e]) = (.ok (), r')) :
    ∃ last, registerAll r l = (.ok (), last) ∧ register last e.record = .ok r' := by
  induction l generalizing r with
  | nil =>
    refine ⟨r, rfl, ?_⟩
    simp only [List.nil_append, registerAll] at h
    cases hregister : register r e.record with
    | error error => simp [hregister] at h
    | ok next =>
      rw [hregister] at h
      cases h
      rfl
  | cons head rest ih =>
    simp only [List.cons_append, registerAll] at h ⊢
    cases hregister : register r head.record with
    | error error => simp [hregister] at h
    | ok next =>
      rw [hregister] at h
      exact ih h

/-- Registering stops at a record that cannot be registered after those before it. -/
theorem exists_of_registerAll_error {l : List MappingEntry} {r r' : Remapper} {conflict : Conflict}
    (h : registerAll r l = (.error conflict, r')) : ∃ before e after, l = before ++ e :: after ∧
      registerAll r before = (.ok (), r') ∧ register r' e.record = .error conflict.error ∧
      conflict.line = e.line := by
  induction l generalizing r with
  | nil => cases h
  | cons head rest ih =>
    rw [registerAll] at h
    cases hregister : register r head.record with
    | error error =>
      rw [hregister] at h
      cases h
      exact ⟨[], head, rest, rfl, rfl, hregister, rfl⟩
    | ok next =>
      rw [hregister] at h
      obtain ⟨before, e, after, rfl, hbefore, he⟩ := ih h
      refine ⟨head :: before, e, after, rfl, ?_, he⟩
      rw [registerAll, hregister]
      exact hbefore

/-- A new name of a method stays, also where registering stops. -/
theorem get?_methods_registerAll {r : Remapper} {owner descriptor old new : String}
    (h : r.methods.get? owner descriptor old = some new) (l : List MappingEntry) :
    (registerAll r l).2.methods.get? owner descriptor old = some new := by
  induction l generalizing r with
  | nil => exact h
  | cons head rest ih =>
    rw [registerAll]
    cases hregister : register r head.record with
    | error error => exact h
    | ok next => exact ih (((registers_of_register hregister).methods _ _ _ _).mpr (.inr h))

end MappingSet

/-- The tables of a remapper hold the renames of a list of records and no others: of a class or a field the last
one, of a method every one. -/
structure Remapper.HoldsRecords (r : Remapper) (l : List MappingEntry) : Prop where
  classes : ∀ old new, r.classes.get? old = some new ↔ MappingSet.LastNames l (.ofClass old) new
  fields : ∀ owner descriptor old new, r.fields.get? owner descriptor old = some new ↔
    MappingSet.LastNames l (.ofField owner descriptor old) new
  methods : ∀ owner descriptor old new, r.methods.get? owner descriptor old = some new ↔
    ∃ e ∈ l, e.record = .ofMethod owner descriptor old new

namespace MappingSet

theorem holdsRecords_of_registerAll {l : List MappingEntry} {r : Remapper}
    (h : registerAll .new l = (.ok (), r)) : r.HoldsRecords l ∧ r.fields.Trim ∧ r.methods.Trim := by
  induction l using List.reverseRecOn generalizing r with
  | nil =>
    cases h
    refine ⟨⟨?_, ?_, ?_⟩, MemberTable.trim_empty, MemberTable.trim_empty⟩ <;>
      simp [Remapper.new, not_lastNames_nil]
  | append_singleton l e ih =>
    obtain ⟨last, hlast, hregister⟩ := exists_of_registerAll_concat h
    obtain ⟨hholds, hfields, hmethods⟩ := ih hlast
    have hnext := registers_of_register hregister
    refine ⟨⟨?_, ?_, ?_⟩, hnext.trimFields hfields, hnext.trimMethods hmethods⟩
    · intro old new
      rw [hnext.classes, hholds.classes, lastNames_concat]
    · intro owner descriptor old new
      rw [hnext.fields, hholds.fields, lastNames_concat]
    · intro owner descriptor old new
      rw [hnext.methods, hholds.methods]
      simp [or_comm, or_and_right, exists_or]

/-! ## Success and failure -/

/-- Of records that are registered together no two contradict each other. -/
theorem not_contradicts_of_registerAll {l : List MappingEntry} {r : Remapper}
    (h : registerAll .new l = (.ok (), r)) {e e' : MappingEntry} (he : e ∈ l) (he' : e' ∈ l) :
    ¬e.record.Contradicts e'.record := by
  rintro ⟨owner, descriptor, old, new, other, hrecord, hrecord', hne⟩
  have hholds := (holdsRecords_of_registerAll h).1
  have hnew := (hholds.methods owner descriptor old new).mpr ⟨e, he, hrecord⟩
  have hother := (hholds.methods owner descriptor old other).mpr ⟨e', he', hrecord'⟩
  rw [hnew] at hother
  exact hne (Option.some.inj hother)

/-- Registering stops at the first record that contradicts an earlier one. -/
theorem contradicts_of_registerAll_error {l : List MappingEntry} {r : Remapper} {conflict : Conflict}
    (h : registerAll .new l = (.error conflict, r)) :
    ∃ before e after owner descriptor old existing requested, l = before ++ e :: after ∧
      e.record = .ofMethod owner descriptor old requested ∧
      (∃ e' ∈ before, e'.record = .ofMethod owner descriptor old existing) ∧ existing ≠ requested ∧
      (∀ e' ∈ before, ∀ e'' ∈ before, ¬e'.record.Contradicts e''.record) ∧
      conflict = ⟨e.line, .conflict owner descriptor old existing requested⟩ ∧ r.HoldsRecords before := by
  obtain ⟨before, e, after, hl, hbefore, hregister, hline⟩ := exists_of_registerAll_error h
  obtain ⟨owner, descriptor, old, existing, requested, hrecord, hget, hne, herror⟩ :=
    exists_of_register_error hregister
  have hholds := (holdsRecords_of_registerAll hbefore).1
  refine ⟨before, e, after, owner, descriptor, old, existing, requested, hl, hrecord,
    (hholds.methods _ _ _ _).mp hget, hne, ?_, ?_, hholds⟩
  · exact fun e' he' e'' he'' => not_contradicts_of_registerAll hbefore he' he''
  · rw [← hline, ← herror]

theorem fails_iff_contradicts (l : List MappingEntry) :
    (∃ conflict, (registerAll .new l).1 = .error conflict) ↔
      ∃ e ∈ l, ∃ e' ∈ l, e.record.Contradicts e'.record := by
  rcases hresult : registerAll .new l with ⟨conflict | ⟨⟨⟩⟩, r⟩
  · refine iff_of_true ⟨conflict, rfl⟩ ?_
    obtain ⟨before, e, after, owner, descriptor, old, existing, requested, rfl, hrecord,
      ⟨e', he', hrecord'⟩, hne, -⟩ := contradicts_of_registerAll_error hresult
    exact ⟨e', by simp [he'], e, by simp, owner, descriptor, old, existing, requested, hrecord', hrecord, hne⟩
  · refine iff_of_false (by simp) ?_
    rintro ⟨e, he, e', he', hcontradicts⟩
    exact not_contradicts_of_registerAll hresult he he' hcontradicts

theorem succeeds_iff_not_contradicts (l : List MappingEntry) :
    (registerAll .new l).1 = .ok () ↔ ∀ e ∈ l, ∀ e' ∈ l, ¬e.record.Contradicts e'.record := by
  have hfails := fails_iff_contradicts l
  constructor
  · intro hok e he e' he' hcontradicts
    obtain ⟨conflict, herror⟩ := hfails.mpr ⟨e, he, e', he', hcontradicts⟩
    rw [hok] at herror
    cases herror
  · intro hnone
    cases hresult : (registerAll .new l).1 with
    | ok result => rfl
    | error conflict =>
      obtain ⟨e, he, e', he', hcontradicts⟩ := hfails.mp ⟨conflict, hresult⟩
      exact absurd hcontradicts (hnone e he e' he')

/-! ## The order of the records -/

theorem succeeds_of_perm {l l' : List MappingEntry} (h : l.Perm l') :
    (registerAll .new l).1 = .ok () ↔ (registerAll .new l').1 = .ok () := by
  simp only [succeeds_iff_not_contradicts, h.mem_iff]

end MappingSet

/-- The remappers have the same renames. -/
def Remapper.SameTables (r r' : Remapper) : Prop :=
  r.classes = r'.classes ∧ r.fields = r'.fields ∧ r.methods = r'.methods

namespace MappingSet

/-- Records of different classes, fields and methods leave the same tables in any order. -/
theorem sameTables_of_perm {l l' : List MappingEntry} {r r' : Remapper} (hperm : l.Perm l')
    (h : registerAll .new l = (.ok (), r)) (h' : registerAll .new l' = (.ok (), r'))
    (hclasses : ∀ old, Once l (.ofClass old))
    (hfields : ∀ owner descriptor old, Once l (.ofField owner descriptor old)) : r.SameTables r' := by
  obtain ⟨hholds, htrimFields, htrimMethods⟩ := holdsRecords_of_registerAll h
  obtain ⟨hholds', htrimFields', htrimMethods'⟩ := holdsRecords_of_registerAll h'
  refine ⟨?_, ?_, ?_⟩
  · apply Table.ext_get?
    intro old
    apply Option.ext
    intro new
    rw [hholds.classes, hholds'.classes, (hclasses old).lastNames_iff, ((hclasses old).perm hperm).lastNames_iff]
    simp only [hperm.mem_iff]
  · apply htrimFields.ext htrimFields'
    intro owner descriptor old
    apply Option.ext
    intro new
    have honce := hfields owner descriptor old
    rw [hholds.fields, hholds'.fields, honce.lastNames_iff, (honce.perm hperm).lastNames_iff]
    simp only [hperm.mem_iff]
  · apply htrimMethods.ext htrimMethods'
    intro owner descriptor old
    apply Option.ext
    intro new
    rw [hholds.methods, hholds'.methods]
    simp only [hperm.mem_iff]

/-- The new name of a method in the first record stays. -/
theorem get?_methods_of_head {e : MappingEntry} {owner descriptor old new : String}
    (h : e.record = .ofMethod owner descriptor old new) (rest : List MappingEntry) :
    (registerAll .new (e :: rest)).2.methods.get? owner descriptor old = some new := by
  cases hregister : register .new e.record with
  | error error =>
    obtain ⟨_, _, _, _, _, -, hget, -⟩ := exists_of_register_error hregister
    simp [Remapper.new] at hget
  | ok next =>
    rw [registerAll, hregister]
    exact get?_methods_registerAll (((registers_of_register hregister).methods _ _ _ _).mpr (.inl h)) rest

/-- Of records that contradict each other the one that comes first decides. -/
theorem succeeds_of_sameTables {l : List MappingEntry}
    (h : ∀ l', l'.Perm l → (registerAll .new l').2.SameTables (registerAll .new l).2) :
    (registerAll .new l).1 = .ok () := by
  rw [succeeds_iff_not_contradicts]
  rintro e he e' he' ⟨owner, descriptor, old, new, other, hrecord, hrecord', hne⟩
  have hfirst := (h _ (List.perm_cons_erase he).symm).2.2
  have hsecond := (h _ (List.perm_cons_erase he').symm).2.2
  have hnew := get?_methods_of_head hrecord (l.erase e)
  have hother := get?_methods_of_head hrecord' (l.erase e')
  rw [hfirst] at hnew
  rw [hsecond, hnew] at hother
  exact hne (Option.some.inj hother)

/-- Registering a mapping set with a new remapper fails exactly if two of its records rename one method differently.
It then stops at the first record that contradicts an earlier one, gives its line, and leaves the renames of the
records before it. Otherwise a class or a field gets the new name of its last record and a method the one that all
its records have. Whether it fails does not depend on the order of the records, and if each class and each field has
one record at most, then neither do the renames exactly if it does not fail. -/
theorem apply_fails_on_contradictions (m : MappingSet) :
    ((∃ conflict, (m.apply .new).1 = .error conflict) ↔
      ∃ e ∈ m.entries, ∃ e' ∈ m.entries, e.record.Contradicts e'.record) ∧
    (∀ conflict r, m.apply .new = (.error conflict, r) →
      ∃ before e after owner descriptor old existing requested, m.entries = before ++ e :: after ∧
        e.record = .ofMethod owner descriptor old requested ∧
        (∃ e' ∈ before, e'.record = .ofMethod owner descriptor old existing) ∧ existing ≠ requested ∧
        (∀ e' ∈ before, ∀ e'' ∈ before, ¬e'.record.Contradicts e''.record) ∧
        conflict = ⟨e.line, .conflict owner descriptor old existing requested⟩ ∧ r.HoldsRecords before) ∧
    (∀ r, m.apply .new = (.ok (), r) → r.HoldsRecords m.entries) ∧
    (∀ m' : MappingSet, m'.entries.Perm m.entries →
      ((m'.apply .new).1 = .ok () ↔ (m.apply .new).1 = .ok ())) ∧
    ((∀ old, Once m.entries (.ofClass old)) →
      (∀ owner descriptor old, Once m.entries (.ofField owner descriptor old)) →
      ((∀ m' : MappingSet, m'.entries.Perm m.entries → (m'.apply .new).2.SameTables (m.apply .new).2) ↔
        (m.apply .new).1 = .ok ())) := by
  refine ⟨fails_iff_contradicts m.entries, fun conflict r => contradicts_of_registerAll_error,
    fun r h => (holdsRecords_of_registerAll h).1, fun m' => succeeds_of_perm, fun hclasses hfields => ⟨?_, ?_⟩⟩
  · intro h
    exact succeeds_of_sameTables fun l' hperm => h ⟨m.source, m.target, l'⟩ hperm
  · intro hok m' hperm
    have hok' := (succeeds_of_perm hperm).mpr hok
    apply sameTables_of_perm hperm (Prod.ext hok' rfl) (Prod.ext hok rfl)
    · exact fun old => (hclasses old).perm hperm.symm
    · exact fun owner descriptor old => (hfields owner descriptor old).perm hperm.symm

end MappingSet

end Classmith
