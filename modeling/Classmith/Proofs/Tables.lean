import Classmith.MemberTable

/-!
# Look-ups in tables

What a table answers after it has been filled from a list, and what it lists. Member tables are
nested tables; they answer as one flat table by owner, descriptor and name would.
-/
namespace Classmith

namespace Table

variable {α : Type}

theorem find_eq_some_iff {key : String} {value : α} {l : List (String × α)}
    (h : l.Pairwise fun a b => a.1 < b.1) : find key l = some value ↔ (key, value) ∈ l := by
  induction l with
  | nil => simp [find]
  | cons head rest ih =>
    obtain ⟨k, v⟩ := head
    obtain ⟨hhead, hrest⟩ := List.pairwise_cons.mp h
    by_cases hk : key = k
    · subst hk
      have hnot : (key, value) ∉ rest := fun hmem => String.lt_irrefl key (hhead _ hmem)
      simp [find, hnot, eq_comm]
    · simp [find, hk, ih hrest]

theorem get?_eq_some_iff (t : Table α) {key : String} {value : α} :
    t.get? key = some value ↔ (key, value) ∈ t.entries :=
  find_eq_some_iff t.ascending

theorem get?_foldl_insert_eq_some {l : List (String × α)} {t : Table α} {key : String} {value : α}
    (h : (l.foldl (fun t e => t.insert e.1 e.2) t).get? key = some value) :
    (key, value) ∈ l ∨ t.get? key = some value := by
  induction l generalizing t with
  | nil => exact Or.inr h
  | cons head rest ih =>
    rcases ih h with hmem | hget
    · exact Or.inl (List.mem_cons_of_mem head hmem)
    · rw [get?_insert] at hget
      split at hget
      · rename_i hkey
        obtain rfl := Option.some.inj hget
        exact Or.inl (by simp [hkey])
      · exact Or.inr hget

theorem isSome_get?_foldl_insert {l : List (String × α)} {t : Table α} {key : String}
    (h : key ∈ l.map (·.1) ∨ (t.get? key).isSome) :
    ((l.foldl (fun t e => t.insert e.1 e.2) t).get? key).isSome := by
  induction l generalizing t with
  | nil => simpa using h
  | cons head rest ih =>
    apply ih
    by_cases hkey : key = head.1
    · exact Or.inr (by simp [hkey])
    · simpa [hkey] using h

/-- In a table of bindings of which no two contradict each other every one counts. -/
theorem get?_ofList_of_mem {l : List (String × α)} {key : String} {value : α}
    (hmem : (key, value) ∈ l) (hsame : ∀ other, (key, other) ∈ l → other = value) :
    (ofList l).get? key = some value := by
  obtain ⟨found, hfound⟩ := Option.isSome_iff_exists.mp
    (isSome_get?_foldl_insert (t := empty) (Or.inl (List.mem_map.mpr ⟨_, hmem, rfl⟩)))
  rcases get?_foldl_insert_eq_some hfound with hin | hempty
  · rw [← hsame found hin]
    exact hfound
  · simp at hempty

theorem mem_of_get?_ofList {l : List (String × α)} {key : String} {value : α}
    (h : (ofList l).get? key = some value) : (key, value) ∈ l := by
  rcases get?_foldl_insert_eq_some h with hin | hempty
  · exact hin
  · simp at hempty

theorem mem_keys_iff (t : Table α) {key : String} : key ∈ t.keys ↔ t.contains key = true := by
  rw [contains, Option.isSome_iff_exists, keys, List.mem_map]
  constructor
  · rintro ⟨⟨k, value⟩, hmem, rfl⟩
    exact ⟨value, t.get?_eq_some_iff.mpr hmem⟩
  · rintro ⟨value, hget⟩
    exact ⟨(key, value), t.get?_eq_some_iff.mp hget, rfl⟩

@[simp] theorem get?_map {β : Type} (t : Table α) (f : α → β) (key : String) :
    (t.map f).get? key = (t.get? key).map f := by
  apply Option.ext
  intro value
  rw [get?_eq_some_iff, Option.map_eq_some_iff, map, List.mem_map]
  constructor
  · rintro ⟨⟨k, v⟩, hmem, heq⟩
    cases heq
    exact ⟨v, t.get?_eq_some_iff.mpr hmem, rfl⟩
  · rintro ⟨v, hget, rfl⟩
    exact ⟨(key, v), t.get?_eq_some_iff.mp hget, rfl⟩

/-- Tables that answer every look-up alike are equal. -/
theorem ext_get? {t u : Table α} (h : ∀ key, t.get? key = u.get? key) : t = u := by
  have hnodup : ∀ t : Table α, t.entries.Nodup := by
    intro t
    refine t.ascending.imp ?_
    rintro a b hlt rfl
    exact String.lt_irrefl _ hlt
  have hsame : ∀ e, e ∈ t.entries ↔ e ∈ u.entries := by
    rintro ⟨key, value⟩
    rw [← t.get?_eq_some_iff, ← u.get?_eq_some_iff, h key]
  have hperm : t.entries.Perm u.entries :=
    (List.perm_ext_iff_of_nodup (hnodup t) (hnodup u)).mpr hsame
  have hentries : t.entries = u.entries := by
    refine List.Perm.eq_of_pairwise ?_ t.ascending u.ascending hperm
    intro a b _ _ hab hba
    exact absurd (String.lt_trans hab hba) (String.lt_irrefl a.1)
  cases t
  cases u
  cases hentries
  rfl

end Table

namespace NameSet

theorem contains_foldl_add (l : List String) (s : NameSet) (name : String) :
    Table.contains (l.foldl add s) name = true ↔ name ∈ l ∨ s.contains name = true := by
  induction l generalizing s with
  | nil => simp
  | cons head rest ih =>
    rw [List.foldl_cons, ih, add]
    by_cases hname : name = head
    · simp [Table.contains, hname]
    · simp [Table.contains, hname]

theorem contains_add {s : NameSet} {added name : String} :
    (s.add added).contains name = true ↔ name = added ∨ s.contains name = true := by
  have hone := contains_foldl_add [added] s name
  simpa using hone

theorem contains_join (s other : NameSet) (name : String) :
    (s.join other).contains name = true ↔ other.contains name = true ∨ s.contains name = true := by
  rw [join, contains_foldl_add, Table.mem_keys_iff]

theorem contains_ofNames (l : List String) (name : String) :
    (ofNames l).contains name = true ↔ name ∈ l := by
  rw [ofNames, contains_foldl_add]
  simp [Table.contains]

/-- Sets with the same names are equal. -/
theorem ext_contains {s t : NameSet} (h : ∀ name, s.contains name = true ↔ t.contains name = true) :
    s = t := by
  apply Table.ext_get?
  intro name
  have hname := h name
  simp only [Table.contains] at hname
  cases hs : s.get? name <;> cases ht : t.get? name <;> simp_all

theorem mem_toNames (s : NameSet) {name : String} : name ∈ s.toNames ↔ s.contains name = true :=
  Table.mem_keys_iff s

end NameSet

/-- A field or method, by all that it is looked up by. -/
structure Member where
  owner : String
  descriptor : String
  name : String
deriving DecidableEq, Repr

namespace MemberTable

theorem get?_insert (t : MemberTable) (owner descriptor name new o d n : String) :
    (t.insert owner descriptor name new).get? o d n =
      if o = owner ∧ d = descriptor ∧ n = name then some new else t.get? o d n := by
  unfold get? insert replace
  by_cases ho : o = owner
  · subst ho
    by_cases hn : n = name
    · subst hn
      by_cases hd : d = descriptor
      · simp [hd]
      · cases howner : t.owners.get? o with
        | none => simp [hd]
        | some names => cases hname : names.get? n <;> simp [hd, hname]
    · cases howner : t.owners.get? o <;> simp [hn]
  · simp [ho]

@[simp] theorem get?_empty (owner descriptor name : String) :
    empty.get? owner descriptor name = none := rfl

/-- Binds the member of an entry. -/
def put (t : MemberTable) (e : Entry) : MemberTable := t.insert e.owner e.descriptor e.name e.new

theorem get?_foldl_put_eq_some {l : List Entry} {t : MemberTable} {o d n new : String}
    (h : (l.foldl put t).get? o d n = some new) :
    ⟨o, d, n, new⟩ ∈ l ∨ t.get? o d n = some new := by
  induction l generalizing t with
  | nil => exact Or.inr h
  | cons e rest ih =>
    rcases ih h with hmem | hget
    · exact Or.inl (List.mem_cons_of_mem e hmem)
    · rw [put, get?_insert] at hget
      split at hget
      · rename_i hkey
        obtain ⟨rfl, rfl, rfl⟩ := hkey
        obtain rfl := Option.some.inj hget
        exact Or.inl (by simp)
      · exact Or.inr hget

theorem isSome_get?_foldl_put {l : List Entry} {t : MemberTable} {o d n : String}
    (h : (∃ new, ⟨o, d, n, new⟩ ∈ l) ∨ (t.get? o d n).isSome) :
    ((l.foldl put t).get? o d n).isSome := by
  induction l generalizing t with
  | nil => simpa using h
  | cons e rest ih =>
    apply ih
    by_cases hkey : o = e.owner ∧ d = e.descriptor ∧ n = e.name
    · exact Or.inr (by rw [put, get?_insert, if_pos hkey]; rfl)
    · rcases h with ⟨new, hmem⟩ | hget
      · rcases List.mem_cons.mp hmem with rfl | hmem
        · simp at hkey
        · exact Or.inl ⟨new, hmem⟩
      · exact Or.inr (by rw [put, get?_insert, if_neg hkey]; exact hget)

/-- A member that has one new name in a list gets it, whatever it had before. -/
theorem get?_foldl_put_of_mem {l : List Entry} {t : MemberTable} {o d n new : String}
    (hmem : ⟨o, d, n, new⟩ ∈ l) (hsame : ∀ other, ⟨o, d, n, other⟩ ∈ l → other = new) :
    (l.foldl put t).get? o d n = some new := by
  induction l generalizing t with
  | nil => simp at hmem
  | cons e rest ih =>
    have hrest : ∀ other, ⟨o, d, n, other⟩ ∈ rest → other = new :=
      fun other hother => hsame other (List.mem_cons_of_mem e hother)
    by_cases hlater : ∃ other, ⟨o, d, n, other⟩ ∈ rest
    · obtain ⟨other, hother⟩ := hlater
      exact ih (hrest other hother ▸ hother) hrest
    · have hhead : e = ⟨o, d, n, new⟩ := by
        rcases List.mem_cons.mp hmem with heq | hin
        · exact heq.symm
        · exact absurd ⟨new, hin⟩ hlater
      obtain ⟨found, hfound⟩ := Option.isSome_iff_exists.mp
        (isSome_get?_foldl_put (l := rest) (t := t.put e) (o := o) (d := d) (n := n)
          (Or.inr (by simp [hhead, put, get?_insert])))
      rcases get?_foldl_put_eq_some hfound with hin | hget
      · exact absurd ⟨found, hin⟩ hlater
      · rw [hhead, put, get?_insert] at hget
        simp only [and_self, if_true] at hget
        rw [List.foldl_cons, hfound, hget]

theorem get?_foldl_put_of_notMem {l : List Entry} {t : MemberTable} {o d n : String}
    (h : ∀ new, ⟨o, d, n, new⟩ ∉ l) : (l.foldl put t).get? o d n = t.get? o d n := by
  induction l generalizing t with
  | nil => rfl
  | cons e rest ih =>
    have hkey : ¬(o = e.owner ∧ d = e.descriptor ∧ n = e.name) := by
      rintro ⟨rfl, rfl, rfl⟩
      exact h e.new List.mem_cons_self
    have hrest := ih (t := t.put e) fun new hnew => h new (List.mem_cons_of_mem e hnew)
    rw [List.foldl_cons, hrest, put, get?_insert, if_neg hkey]

theorem mem_toList (t : MemberTable) {o d n new : String} :
    ⟨o, d, n, new⟩ ∈ t.toList ↔ t.get? o d n = some new := by
  constructor
  · intro h
    simp only [toList, Table.toList, List.mem_flatMap, List.mem_map, Entry.mk.injEq] at h
    obtain ⟨⟨owner, names⟩, howner, ⟨name, descriptors⟩, hname, ⟨descriptor, value⟩, hdescriptor,
      rfl, rfl, rfl, rfl⟩ := h
    simp only [get?, (Table.get?_eq_some_iff _).mpr howner, Option.bind_some,
      (Table.get?_eq_some_iff _).mpr hname, (Table.get?_eq_some_iff _).mpr hdescriptor]
  · intro h
    simp only [get?, Option.bind_eq_some_iff] at h
    obtain ⟨descriptors, ⟨names, howner, hname⟩, hdescriptor⟩ := h
    simp only [toList, Table.toList, List.mem_flatMap, List.mem_map, Entry.mk.injEq]
    exact ⟨(o, names), (Table.get?_eq_some_iff _).mp howner, (n, descriptors),
      (Table.get?_eq_some_iff _).mp hname, (d, new), (Table.get?_eq_some_iff _).mp hdescriptor,
      rfl, rfl, rfl, rfl⟩

/-- No owner is listed without names and no name without descriptors. -/
def Trim (t : MemberTable) : Prop :=
  ∀ owner names, t.owners.get? owner = some names → (∃ name, (names.get? name).isSome) ∧
    ∀ name descriptors, names.get? name = some descriptors →
      ∃ descriptor, (descriptors.get? descriptor).isSome

theorem trim_empty : empty.Trim := by
  intro owner names h
  simp [empty] at h

theorem Trim.insert {t : MemberTable} (h : t.Trim) (owner descriptor name new : String) :
    (t.insert owner descriptor name new).Trim := by
  intro o names hnames
  simp only [MemberTable.insert, replace, Table.get?_insert] at hnames
  by_cases ho : o = owner
  · rw [if_pos ho] at hnames
    obtain rfl := Option.some.inj hnames
    refine ⟨⟨name, by simp⟩, ?_⟩
    intro n descriptors hdescriptors
    by_cases hn : n = name
    · simp only [Table.get?_insert, if_pos hn] at hdescriptors
      obtain rfl := Option.some.inj hdescriptors
      exact ⟨descriptor, by simp⟩
    · simp only [Table.get?_insert, if_neg hn] at hdescriptors
      cases howner : t.owners.get? owner with
      | none => simp [howner] at hdescriptors
      | some old =>
        rw [howner, Option.getD_some] at hdescriptors
        exact (h owner old howner).2 n descriptors hdescriptors
  · rw [if_neg ho] at hnames
    exact h o names hnames

theorem Trim.foldl_put {t : MemberTable} (h : t.Trim) (l : List Entry) : (l.foldl put t).Trim := by
  induction l generalizing t with
  | nil => exact h
  | cons e rest ih => exact ih (h.insert e.owner e.descriptor e.name e.new)

/-- What an owner lists is found by look-ups. -/
theorem Trim.exists_get? {t : MemberTable} (h : t.Trim) {owner : String}
    {names : Table (Table String)} (howner : t.owners.get? owner = some names) :
    ∃ descriptor name new, t.get? owner descriptor name = some new := by
  obtain ⟨⟨name, hname⟩, hinner⟩ := h owner names howner
  obtain ⟨descriptors, hdescriptors⟩ := Option.isSome_iff_exists.mp hname
  obtain ⟨descriptor, hdescriptor⟩ := hinner name descriptors hdescriptors
  obtain ⟨new, hnew⟩ := Option.isSome_iff_exists.mp hdescriptor
  exact ⟨descriptor, name, new, by simp [get?, howner, hdescriptors, hnew]⟩

/-- Of two tables that answer alike the second lists the names of an owner that the first lists. -/
theorem Trim.owner_eq {t u : MemberTable} (ht : t.Trim) (hu : u.Trim)
    (h : ∀ o d n, t.get? o d n = u.get? o d n) {owner : String} {names : Table (Table String)}
    (howner : t.owners.get? owner = some names) : u.owners.get? owner = some names := by
  obtain ⟨descriptor, name, new, hget⟩ := ht.exists_get? howner
  rw [h] at hget
  cases hother : u.owners.get? owner with
  | none => simp [get?, hother] at hget
  | some others =>
    have hnames : ∀ n, others.get? n = names.get? n := by
      intro n
      have hdescriptors : ∀ d, (others.get? n).bind (·.get? d) = (names.get? n).bind (·.get? d) := by
        intro d
        have hd := h owner d n
        simp only [get?, howner, hother, Option.bind_some] at hd
        exact hd.symm
      -- a name that is listed has a descriptor, so one side lists it only if the other does
      cases hleft : others.get? n with
      | none =>
        cases hright : names.get? n with
        | none => rfl
        | some descriptors =>
          obtain ⟨d, hd⟩ := (ht owner names howner).2 n descriptors hright
          have hsame := hdescriptors d
          simp only [hleft, hright, Option.bind_none, Option.bind_some] at hsame
          simp [← hsame] at hd
      | some descriptors =>
        cases hright : names.get? n with
        | none =>
          obtain ⟨d, hd⟩ := (hu owner others hother).2 n descriptors hleft
          have hsame := hdescriptors d
          simp only [hleft, hright, Option.bind_none, Option.bind_some] at hsame
          simp [hsame] at hd
        | some descriptors' =>
          simp only [hleft, hright, Option.bind_some] at hdescriptors
          rw [Table.ext_get? hdescriptors]
    rw [Table.ext_get? hnames]

theorem Trim.ext {t u : MemberTable} (ht : t.Trim) (hu : u.Trim)
    (h : ∀ o d n, t.get? o d n = u.get? o d n) : t = u := by
  have howners : t.owners = u.owners := by
    apply Table.ext_get?
    intro owner
    cases hleft : t.owners.get? owner with
    | some names => exact (ht.owner_eq hu h hleft).symm
    | none =>
      cases hright : u.owners.get? owner with
      | none => rfl
      | some names =>
        rw [hu.owner_eq ht (fun o d n => (h o d n).symm) hright] at hleft
        cases hleft
  cases t
  cases u
  cases howners
  rfl

end MemberTable

end Classmith
