/-!
# Finite maps with text keys

A `Table` lists its entries in ascending order of their keys, each key once. Two tables that answer
every look-up alike are therefore equal, and listing a table needs no sorting.
-/
namespace Classmith

/-- A finite map from names to values, in ascending order of the names. -/
structure Table (α : Type) where
  entries : List (String × α)
  ascending : entries.Pairwise fun a b => a.1 < b.1

namespace Table

variable {α β : Type}

/-- Look-up in a list of entries. -/
def find (key : String) : List (String × α) → Option α
  | [] => none
  | (k, v) :: rest => if key = k then some v else find key rest

/-- Puts an entry at its place in an ascending list, over an entry of the same key. -/
def put (key : String) (value : α) : List (String × α) → List (String × α)
  | [] => [(key, value)]
  | (k, v) :: rest =>
    if key < k then (key, value) :: (k, v) :: rest
    else if key = k then (key, value) :: rest
    else (k, v) :: put key value rest

theorem mem_put {key : String} {value : α} {l : List (String × α)} {e : String × α}
    (h : e ∈ put key value l) : e = (key, value) ∨ e ∈ l := by
  induction l with
  | nil => simpa [put] using h
  | cons head rest ih =>
    obtain ⟨k, v⟩ := head
    simp only [put] at h
    split at h
    · simpa using h
    · split at h
      · rcases List.mem_cons.1 h with h | h
        · exact Or.inl h
        · exact Or.inr (List.mem_cons_of_mem _ h)
      · rcases List.mem_cons.1 h with h | h
        · exact Or.inr (h ▸ List.mem_cons_self)
        · exact (ih h).imp_right (List.mem_cons_of_mem _)

private theorem lt_of_not_lt_of_ne {a b : String} (h : ¬a < b) (hne : a ≠ b) : b < a :=
  Std.lt_of_le_of_ne (Std.not_lt.1 h) (Ne.symm hne)

theorem put_ascending (key : String) (value : α) {l : List (String × α)}
    (h : l.Pairwise fun a b => a.1 < b.1) : (put key value l).Pairwise fun a b => a.1 < b.1 := by
  induction l with
  | nil => simp [put]
  | cons head rest ih =>
    obtain ⟨k, v⟩ := head
    have hrest := List.pairwise_cons.1 h
    simp only [put]
    split
    · rename_i hlt
      refine List.pairwise_cons.2 ⟨fun e he => ?_, h⟩
      rcases List.mem_cons.1 he with rfl | he
      · exact hlt
      · exact String.lt_trans hlt (hrest.1 e he)
    · split
      · rename_i heq
        subst heq
        exact List.pairwise_cons.2 hrest
      · rename_i hnlt hne
        refine List.pairwise_cons.2 ⟨fun e he => ?_, ih hrest.2⟩
        rcases mem_put he with rfl | he
        · exact lt_of_not_lt_of_ne hnlt hne
        · exact hrest.1 e he

def empty : Table α := ⟨[], List.Pairwise.nil⟩

instance : EmptyCollection (Table α) := ⟨empty⟩

instance : Inhabited (Table α) := ⟨empty⟩

def get? (t : Table α) (key : String) : Option α := find key t.entries

def contains (t : Table α) (key : String) : Bool := (t.get? key).isSome

/-- Binds a key, in place of what it was bound to. -/
def insert (t : Table α) (key : String) (value : α) : Table α :=
  ⟨put key value t.entries, put_ascending key value t.ascending⟩

def erase (t : Table α) (key : String) : Table α :=
  ⟨t.entries.filter fun e => e.1 ≠ key, t.ascending.filter _⟩

/-- Keeps the entries that pass a test. -/
def filter (t : Table α) (keep : String → α → Bool) : Table α :=
  ⟨t.entries.filter fun e => keep e.1 e.2, t.ascending.filter _⟩

def map (t : Table α) (f : α → β) : Table β :=
  ⟨t.entries.map fun e => (e.1, f e.2), List.pairwise_map.2 t.ascending⟩

def isEmpty (t : Table α) : Bool := t.entries.isEmpty

def size (t : Table α) : Nat := t.entries.length

def keys (t : Table α) : List String := t.entries.map (·.1)

def toList (t : Table α) : List (String × α) := t.entries

/-- The table of a list of bindings; of two bindings of a key the later one counts. -/
def ofList (l : List (String × α)) : Table α :=
  l.foldl (fun t e => t.insert e.1 e.2) empty

/-- Adds the bindings of another table, which win over those at hand. -/
def union (t other : Table α) : Table α :=
  other.entries.foldl (fun t e => t.insert e.1 e.2) t

@[simp] theorem get?_empty (key : String) : (empty : Table α).get? key = none := rfl

theorem find_put (key : String) (value : α) (other : String) (l : List (String × α)) :
    find other (put key value l) = if other = key then some value else find other l := by
  induction l with
  | nil => simp [put, find]
  | cons head rest ih =>
    obtain ⟨k, v⟩ := head
    simp only [put]
    split
    · simp [find]
    · split
      · rename_i heq
        subst heq
        by_cases h : other = key <;> simp [find, h]
      · rename_i hne
        by_cases h : other = k
        · subst h
          simp [find, Ne.symm hne]
        · simp [find, h, ih]

@[simp] theorem get?_insert (t : Table α) (key : String) (value : α) (other : String) :
    (t.insert key value).get? other = if other = key then some value else t.get? other :=
  find_put key value other t.entries

theorem find_filter_ne (key other : String) (l : List (String × α)) :
    find other (l.filter fun e => e.1 ≠ key) = if other = key then none else find other l := by
  induction l with
  | nil => simp [find]
  | cons head rest ih =>
    obtain ⟨k, v⟩ := head
    by_cases hk : k = key
    · subst hk
      by_cases h : other = k
      · simpa [h] using ih
      · simpa [find, h] using ih
    · by_cases h : other = k
      · simp [find, hk, h]
      · simpa [find, hk, h] using ih

@[simp] theorem get?_erase (t : Table α) (key other : String) :
    (t.erase key).get? other = if other = key then none else t.get? other :=
  find_filter_ne key other t.entries

end Table

/-- A finite set of names in ascending order. -/
abbrev NameSet := Table Unit

namespace NameSet

def add (s : NameSet) (name : String) : NameSet := s.insert name ()

def ofNames (names : List String) : NameSet := names.foldl add Table.empty

/-- Adds every name of a second set. -/
def join (s other : NameSet) : NameSet := other.keys.foldl add s

def toNames (s : NameSet) : List String := s.keys

end NameSet

end Classmith
