import Mathlib.Data.Finmap
import Classmith.Proofs.Tables

/-!
# Member tables in use

New names of members are kept in three levels, by owner, by old name and by descriptor. However members are bound
and unbound, the levels answer as one finite map from members to new names, and since a level that becomes empty
is dropped at once, what is listed and counted is what the map has.
-/
namespace Classmith

namespace Table

variable {α β : Type}

theorem eq_empty_of_isEmpty {t : Table α} (h : t.isEmpty = true) : t = empty := by
  apply ext_get?
  intro key
  have hentries : t.entries = [] := List.isEmpty_iff.mp h
  rw [get?, hentries]
  rfl

theorem isEmpty_eq_false_iff {t : Table α} : t.isEmpty = false ↔ ∃ key, (t.get? key).isSome := by
  constructor
  · intro h
    obtain ⟨⟨key, value⟩, hmem⟩ := List.exists_mem_of_ne_nil t.entries (by simpa [isEmpty] using h)
    exact ⟨key, Option.isSome_iff_exists.mpr ⟨value, t.get?_eq_some_iff.mpr hmem⟩⟩
  · rintro ⟨key, hkey⟩
    cases hempty : t.isEmpty with
    | false => rfl
    | true =>
      rw [eq_empty_of_isEmpty hempty] at hkey
      cases hkey

/-- Puts a table into a table, unless it is empty. -/
def keep (t : Table (Table α)) (key : String) (inner : Table α) : Table (Table α) :=
  if inner.isEmpty then t.erase key else t.insert key inner

theorem get?_keep (t : Table (Table α)) (key other : String) (inner : Table α) :
    (t.keep key inner).get? other =
      if other = key then if inner.isEmpty then none else some inner else t.get? other := by
  unfold keep
  cases inner.isEmpty <;> simp

/-- A table that was not put in because it is empty answers as if it were there. -/
theorem bind_get?_keep {f : Table α → Option β} (hf : f empty = none) (t : Table (Table α))
    (key other : String) (inner : Table α) :
    ((t.keep key inner).get? other).bind f = if other = key then f inner else (t.get? other).bind f := by
  rw [get?_keep]
  by_cases hother : other = key
  · cases hempty : inner.isEmpty with
    | true => simp [hother, eq_empty_of_isEmpty hempty, hf]
    | false => simp [hother]
  · simp [hother]

end Table

namespace MemberTable

/-! ## Operations -/

inductive Operation where
  | get (m : Member)
  | insert (m : Member) (new : String)
  | insertUnique (m : Member) (new : String)
  | remove (m : Member)
  | clear

/-- What an operation answers: a new name if there is one to tell, or why it is refused. -/
abbrev Answer := Except Error (Option String)

/-- A change to a table. When it fails, the table stays as it was left at that point. -/
abbrev InPlace := ExceptT Error (StateM MemberTable)

/-- Binds a member, unless it has another new name. -/
def bindNew (m : Member) (new : String) : InPlace Unit := do
  match (← get).get? m.owner m.descriptor m.name with
  | some existing =>
    if existing ≠ new then throw (.conflict m.owner m.descriptor m.name existing new)
  | none => modify fun t => t.insert m.owner m.descriptor m.name new

/-- The answer to an operation and the table after it. -/
def Operation.perform : Operation → MemberTable → Answer × MemberTable
  | .get m, t => (.ok (t.get? m.owner m.descriptor m.name), t)
  | .insert m new, t => (t.replace m.owner m.descriptor m.name new).map .ok id
  | .insertUnique m new, t => Prod.map (Except.map fun _ => none) id (bindNew m new t)
  | .remove m, t => (t.remove m.owner m.descriptor m.name).map .ok id
  | .clear, _ => (.ok none, MemberTable.empty)

/-- The same on a finite map from members to new names. -/
abbrev Flat := Finmap fun _ : Member => String

def Operation.onFlat : Operation → Flat → Answer × Flat
  | .get m, flat => (.ok (flat.lookup m), flat)
  | .insert m new, flat => (.ok (flat.lookup m), flat.insert m new)
  | .insertUnique m new, flat =>
    match flat.lookup m with
    | none => (.ok none, flat.insert m new)
    | some existing =>
      if existing = new then (.ok none, flat)
      else (.error (.conflict m.owner m.descriptor m.name existing new), flat)
  | .remove m, flat => (.ok (flat.lookup m), flat.erase m)
  | .clear, _ => (.ok none, ∅)

/-- The answers to operations one after another, and the state they lead to. -/
def session {σ : Type} (perform : Operation → σ → Answer × σ) : List Operation → σ → List Answer × σ
  | [], s => ([], s)
  | operation :: rest, s =>
    let later := session perform rest (perform operation s).2
    ((perform operation s).1 :: later.1, later.2)

def answers (operations : List Operation) : List Answer := (session Operation.perform operations empty).1

def after (operations : List Operation) : MemberTable := (session Operation.perform operations empty).2

def flatAnswers (operations : List Operation) : List Answer := (session Operation.onFlat operations ∅).1

def flatAfter (operations : List Operation) : Flat := (session Operation.onFlat operations ∅).2

/-! ### What an operation does -/

/-- The result of a change that is made as a whole or not at all. -/
def settle (t : MemberTable) : Except Error MemberTable → Except Error Unit × MemberTable
  | .ok u => (.ok (), u)
  | .error e => (.error e, t)

theorem get_bind {α : Type} (next : MemberTable → InPlace α) (t : MemberTable) :
    ((get : InPlace MemberTable) >>= next) t = next t t := rfl

theorem bindNew_eq (m : Member) (new : String) (t : MemberTable) :
    bindNew m new t = t.settle (t.insertUnique m.owner m.descriptor m.name new) := by
  rw [bindNew, get_bind, insertUnique]
  cases t.get? m.owner m.descriptor m.name with
  | none => rfl
  | some existing =>
    dsimp only
    by_cases hsame : existing = new
    · rw [if_neg (not_not.mpr hsame), if_pos hsame]
      rfl
    · rw [if_pos hsame, if_neg hsame]
      rfl

theorem replace_eq (t : MemberTable) (owner descriptor name new : String) :
    t.replace owner descriptor name new =
      (t.get? owner descriptor name, t.insert owner descriptor name new) := by
  refine Prod.ext ?_ rfl
  simp only [replace, get?]
  cases t.owners.get? owner with
  | none => rfl
  | some names =>
    rw [Option.getD_some, Option.bind_some]
    cases names.get? name with
    | none => rfl
    | some descriptors => rfl

theorem remove_eq (t : MemberTable) (owner descriptor name : String) :
    t.remove owner descriptor name =
      (t.get? owner descriptor name, t.erase owner descriptor name) := by
  refine Prod.ext ?_ rfl
  simp only [remove, get?]
  cases t.owners.get? owner with
  | none => rfl
  | some names =>
    simp only [Option.bind_some]
    cases names.get? name with
    | none => rfl
    | some descriptors => rfl

/-! ## What unbinding does -/

theorem erase_of_unlisted {t : MemberTable} {owner name : String}
    (h : ((t.owners.get? owner).bind fun names => names.get? name) = none) (descriptor : String) :
    t.erase owner descriptor name = t := by
  unfold erase remove
  cases hnames : t.owners.get? owner with
  | none => rfl
  | some names =>
    rw [hnames, Option.bind_some] at h
    simp only [h]

theorem erase_of_listed {t : MemberTable} {owner name : String} {names : Table (Table String)}
    {descriptors : Table String} (hnames : t.owners.get? owner = some names)
    (hdescriptors : names.get? name = some descriptors) (descriptor : String) :
    t.erase owner descriptor name =
      ⟨t.owners.keep owner (names.keep name (descriptors.erase descriptor))⟩ := by
  simp only [erase, remove, hnames, hdescriptors]
  rfl

theorem get?_erase (t : MemberTable) (owner descriptor name o d n : String) :
    (t.erase owner descriptor name).get? o d n =
      if o = owner ∧ d = descriptor ∧ n = name then none else t.get? o d n := by
  cases hlisted : (t.owners.get? owner).bind fun names => names.get? name with
  | none =>
    rw [erase_of_unlisted hlisted]
    split
    · rename_i hkey
      obtain ⟨rfl, -, rfl⟩ := hkey
      rw [get?, hlisted]
      rfl
    · rfl
  | some descriptors =>
    obtain ⟨names, hnames, hdescriptors⟩ := Option.bind_eq_some_iff.mp hlisted
    rw [erase_of_listed hnames hdescriptors]
    simp only [get?, Option.bind_assoc]
    rw [Table.bind_get?_keep rfl, Table.bind_get?_keep rfl, Table.get?_erase]
    by_cases ho : o = owner
    · subst ho
      by_cases hn : n = name
      · subst hn
        by_cases hd : d = descriptor <;> simp [hd, hnames, hdescriptors]
      · simp [hn, hnames]
    · simp [ho]

theorem Trim.erase {t : MemberTable} (h : t.Trim) (owner descriptor name : String) :
    (t.erase owner descriptor name).Trim := by
  cases hlisted : (t.owners.get? owner).bind fun names => names.get? name with
  | none => rwa [erase_of_unlisted hlisted]
  | some descriptors =>
    obtain ⟨names, hnames, hdescriptors⟩ := Option.bind_eq_some_iff.mp hlisted
    rw [erase_of_listed hnames hdescriptors]
    intro o left hleft
    simp only [Table.get?_keep] at hleft
    split at hleft
    · split at hleft
      · cases hleft
      · rename_i hnonempty
        cases hleft
        refine ⟨Table.isEmpty_eq_false_iff.mp (Bool.eq_false_iff.mpr hnonempty), ?_⟩
        intro n inner hinner
        rw [Table.get?_keep] at hinner
        split at hinner
        · split at hinner
          · cases hinner
          · rename_i hrest
            cases hinner
            exact Table.isEmpty_eq_false_iff.mp (Bool.eq_false_iff.mpr hrest)
        · exact (h owner names hnames).2 n inner hinner
    · exact h o left hleft

/-! ## What is listed -/

def Entry.member (e : Entry) : Member := ⟨e.owner, e.descriptor, e.name⟩

/-- The order by owner, then by name, then by descriptor. -/
def Entry.Before (a b : Entry) : Prop :=
  a.owner < b.owner ∨ a.owner = b.owner ∧
    (a.name < b.name ∨ a.name = b.name ∧ a.descriptor < b.descriptor)

theorem Entry.Before.member_ne {a b : Entry} (h : a.Before b) : a.member ≠ b.member := by
  intro hsame
  obtain ⟨howner, hdescriptor, hname⟩ := Member.mk.inj hsame
  rcases h with hlt | ⟨-, hlt | ⟨-, hlt⟩⟩
  · exact String.lt_irrefl _ (howner ▸ hlt)
  · exact String.lt_irrefl _ (hname ▸ hlt)
  · exact String.lt_irrefl _ (hdescriptor ▸ hlt)

theorem toList_ascending (t : MemberTable) : t.toList.Pairwise Entry.Before := by
  -- at each level the entries of one key come together, and the keys ascend
  refine List.pairwise_flatMap.mpr ⟨?_, t.owners.ascending.imp ?_⟩
  · intro names hnames
    refine List.pairwise_flatMap.mpr ⟨?_, names.2.ascending.imp ?_⟩
    · intro descriptors hdescriptors
      refine List.pairwise_map.mpr (descriptors.2.ascending.imp ?_)
      intro a b hlt
      exact .inr ⟨rfl, .inr ⟨rfl, hlt⟩⟩
    · intro a b hlt x hx y hy
      obtain ⟨_, -, rfl⟩ := List.mem_map.mp hx
      obtain ⟨_, -, rfl⟩ := List.mem_map.mp hy
      exact .inr ⟨rfl, .inl hlt⟩
  · intro a b hlt x hx y hy
    obtain ⟨_, -, hx⟩ := List.mem_flatMap.mp hx
    obtain ⟨_, -, hy⟩ := List.mem_flatMap.mp hy
    obtain ⟨_, -, rfl⟩ := List.mem_map.mp hx
    obtain ⟨_, -, rfl⟩ := List.mem_map.mp hy
    exact .inl hlt

theorem nodup_toList (t : MemberTable) : t.toList.Nodup :=
  t.toList_ascending.imp fun hbefore hsame => hbefore.member_ne (congrArg Entry.member hsame)

theorem nodup_members (t : MemberTable) : (t.toList.map Entry.member).Nodup :=
  List.pairwise_map.mpr (t.toList_ascending.imp Entry.Before.member_ne)

/-! ## The map behind a table -/

/-- The table has the new names of the map, and no level that is empty. -/
structure Represents (t : MemberTable) (flat : Flat) : Prop where
  trim : t.Trim
  get?_eq : ∀ m : Member, t.get? m.owner m.descriptor m.name = flat.lookup m

theorem represents_empty : Represents empty ∅ := ⟨trim_empty, fun _ => rfl⟩

theorem sameKey_iff {a b : Member} :
    a.owner = b.owner ∧ a.descriptor = b.descriptor ∧ a.name = b.name ↔ a = b := by
  cases a
  cases b
  simp

section

variable {t : MemberTable} {flat : Flat}

theorem Represents.insert (h : Represents t flat) (m : Member) (new : String) :
    Represents (t.insert m.owner m.descriptor m.name new) (flat.insert m new) := by
  refine ⟨h.trim.insert _ _ _ _, fun other => ?_⟩
  simp only [get?_insert, sameKey_iff]
  by_cases hsame : other = m
  · rw [hsame, if_pos rfl, Finmap.lookup_insert]
  · rw [if_neg hsame, Finmap.lookup_insert_of_ne _ hsame, h.get?_eq]

theorem Represents.erase (h : Represents t flat) (m : Member) :
    Represents (t.erase m.owner m.descriptor m.name) (flat.erase m) := by
  refine ⟨h.trim.erase _ _ _, fun other => ?_⟩
  simp only [get?_erase, sameKey_iff]
  by_cases hsame : other = m
  · rw [hsame, if_pos rfl, Finmap.lookup_erase]
  · rw [if_neg hsame, Finmap.lookup_erase_ne hsame, h.get?_eq]

/-- An operation has the same answer on a table and on its map, and leads to a table and its map. -/
theorem Represents.perform (h : Represents t flat) (operation : Operation) :
    (operation.perform t).1 = (operation.onFlat flat).1 ∧
      Represents (operation.perform t).2 (operation.onFlat flat).2 := by
  cases operation with
  | get m => exact ⟨congrArg Except.ok (h.get?_eq m), h⟩
  | insert m new =>
    rw [Operation.perform, replace_eq, h.get?_eq m]
    exact ⟨rfl, h.insert m new⟩
  | insertUnique m new =>
    rw [Operation.perform, bindNew_eq, insertUnique, h.get?_eq m, Operation.onFlat]
    cases flat.lookup m with
    | none => exact ⟨rfl, h.insert m new⟩
    | some existing =>
      by_cases hsame : existing = new
      · simp only [if_pos hsame]
        exact ⟨rfl, h⟩
      · simp only [if_neg hsame]
        exact ⟨rfl, h⟩
  | remove m =>
    rw [Operation.perform, remove_eq, h.get?_eq m]
    exact ⟨rfl, h.erase m⟩
  | clear => exact ⟨rfl, represents_empty⟩

theorem Represents.session (h : Represents t flat) (operations : List Operation) :
    (session Operation.perform operations t).1 = (session Operation.onFlat operations flat).1 ∧
      Represents (session Operation.perform operations t).2
        (session Operation.onFlat operations flat).2 := by
  induction operations generalizing t flat with
  | nil => exact ⟨rfl, h⟩
  | cons operation rest ih =>
    obtain ⟨hanswer, hnext⟩ := h.perform operation
    obtain ⟨hanswers, hafter⟩ := ih hnext
    refine ⟨?_, hafter⟩
    simp only [MemberTable.session, hanswer, hanswers]

end

theorem answers_eq (operations : List Operation) : answers operations = flatAnswers operations :=
  (represents_empty.session operations).1

theorem represents_after (operations : List Operation) :
    Represents (after operations) (flatAfter operations) :=
  (represents_empty.session operations).2

/-! ### What the map tells about the table -/

section

variable {t : MemberTable} {flat : Flat}

theorem Represents.mem_toList_iff (h : Represents t flat) {e : Entry} :
    e ∈ t.toList ↔ flat.lookup e.member = some e.new := by
  rw [← h.get?_eq]
  exact t.mem_toList

theorem Represents.isEmpty_iff (h : Represents t flat) : t.isEmpty = true ↔ flat = ∅ := by
  constructor
  · intro hempty
    apply Finmap.ext_lookup
    intro m
    rw [← h.get?_eq, get?, Table.eq_empty_of_isEmpty hempty]
    rfl
  · rintro rfl
    cases hempty : t.isEmpty with
    | true => rfl
    | false =>
      obtain ⟨owner, howner⟩ := Table.isEmpty_eq_false_iff.mp hempty
      obtain ⟨names, hnames⟩ := Option.isSome_iff_exists.mp howner
      obtain ⟨descriptor, name, new, hget⟩ := h.trim.exists_get? hnames
      rw [h.get?_eq ⟨owner, descriptor, name⟩] at hget
      cases hget

theorem Represents.size_eq (h : Represents t flat) : t.size = flat.keys.card := by
  have hkeys : flat.keys = (t.toList.map Entry.member).toFinset := by
    ext m
    rw [Finmap.mem_keys, Finmap.mem_iff, List.mem_toFinset, List.mem_map]
    constructor
    · rintro ⟨new, hnew⟩
      exact ⟨⟨m.owner, m.descriptor, m.name, new⟩, h.mem_toList_iff.mpr hnew, rfl⟩
    · rintro ⟨e, he, rfl⟩
      exact ⟨e.new, h.mem_toList_iff.mp he⟩
  rw [hkeys, List.toFinset_card_of_nodup t.nodup_members, List.length_map]
  rfl

end

/-- Along every sequence of operations a table answers as a finite map from members to new names does. A member
that has another new name is not bound anew: the error tells both names and the table stays as it is. Otherwise
binding gives the table that is left behind. No table inside is ever left empty, so that the table is empty exactly
if the map is. It counts the entries of the map and lists each of them once, by owner, then by name, then by
descriptor. -/
theorem answers_as_flat_map (operations : List Operation) :
    answers operations = flatAnswers operations ∧
    (∀ m : Member, (after operations).get? m.owner m.descriptor m.name = (flatAfter operations).lookup m) ∧
    (∀ (m : Member) (existing new : String), (flatAfter operations).lookup m = some existing →
      existing ≠ new → (Operation.insertUnique m new).perform (after operations) =
        (.error (.conflict m.owner m.descriptor m.name existing new), after operations)) ∧
    (∀ (m : Member) (new : String), (after operations).insertUnique m.owner m.descriptor m.name new =
      ((Operation.insertUnique m new).perform (after operations)).1.map fun _ =>
        ((Operation.insertUnique m new).perform (after operations)).2) ∧
    (∀ owner names, (after operations).owners.get? owner = some names → names.isEmpty = false ∧
      ∀ name descriptors, names.get? name = some descriptors → descriptors.isEmpty = false) ∧
    ((after operations).isEmpty = true ↔ flatAfter operations = ∅) ∧
    (after operations).size = (flatAfter operations).keys.card ∧
    (after operations).toList.Pairwise Entry.Before ∧
    ∀ e : Entry, (after operations).toList.count e =
      if (flatAfter operations).lookup e.member = some e.new then 1 else 0 := by
  have hafter := represents_after operations
  refine ⟨answers_eq operations, hafter.get?_eq, ?_, ?_, ?_, hafter.isEmpty_iff, hafter.size_eq,
    toList_ascending _, ?_⟩
  · intro m existing new hexisting hother
    have hget : (after operations).get? m.owner m.descriptor m.name = some existing := by
      rw [hafter.get?_eq, hexisting]
    have hrefused : (after operations).insertUnique m.owner m.descriptor m.name new =
        .error (.conflict m.owner m.descriptor m.name existing new) := by
      simp only [insertUnique, hget, if_neg hother]
    rw [Operation.perform, bindNew_eq, hrefused]
    rfl
  · intro m new
    rw [Operation.perform, bindNew_eq]
    cases (after operations).insertUnique m.owner m.descriptor m.name new with
    | ok t => rfl
    | error e => rfl
  · intro owner names hnames
    obtain ⟨hnonempty, hinner⟩ := hafter.trim owner names hnames
    refine ⟨Table.isEmpty_eq_false_iff.mpr hnonempty, fun name descriptors hdescriptors => ?_⟩
    exact Table.isEmpty_eq_false_iff.mpr (hinner name descriptors hdescriptors)
  · intro e
    rw [(nodup_toList _).count]
    exact if_congr hafter.mem_toList_iff rfl rfl

end MemberTable

end Classmith
