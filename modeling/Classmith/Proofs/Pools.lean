import Classmith.Pool
import Classmith.Proofs.Tables

/-!
# Pools and their indexes

What a look-up finds in a pool whose index has been rebuilt: the class of that name, if there is one.
-/
namespace Classmith.Pool

/-- Indexing without meeting a name again means that the names differ from each other and from those
indexed before. -/
theorem nodup_of_positions {classes : List Class} {start : Nat} {index : Table Nat}
    (hnone : (positions classes start index).2 = []) :
    (classes.map (·.name)).Nodup ∧ ∀ c ∈ classes, index.contains c.name = false := by
  induction classes generalizing start index with
  | nil => simp
  | cons c rest ih =>
    have hfresh : index.contains c.name = false := by
      cases hcontains : index.contains c.name with
      | false => rfl
      | true => simp [positions, hcontains] at hnone
    have hrest : (positions rest (start + 1) (index.insert c.name start)).2 = [] := by
      simpa [positions, hfresh] using hnone
    obtain ⟨hnodup, hlater⟩ := ih hrest
    have hother : ∀ d ∈ rest, d.name ≠ c.name ∧ index.contains d.name = false := by
      intro d hd
      have hcontains := hlater d hd
      by_cases hname : d.name = c.name
      · simp [Table.contains, hname] at hcontains
      · refine ⟨hname, ?_⟩
        simpa [Table.contains, hname] using hcontains
    refine ⟨List.nodup_cons.mpr ⟨?_, hnodup⟩, ?_⟩
    · intro hmem
      obtain ⟨d, hd, hname⟩ := List.mem_map.mp hmem
      exact (hother d hd).1 hname
    · intro d hd
      rcases List.mem_cons.mp hd with rfl | hd
      · exact hfresh
      · exact (hother d hd).2

theorem get?_positions {classes : List Class} {start : Nat} {index : Table Nat}
    (hnone : (positions classes start index).2 = []) {name : String} {position : Nat} :
    (positions classes start index).1.get? name = some position ↔ index.get? name = some position ∨
      ∃ i c, classes[i]? = some c ∧ c.name = name ∧ start + i = position := by
  induction classes generalizing start index with
  | nil => simp [positions]
  | cons c rest ih =>
    have hfresh : index.contains c.name = false := (nodup_of_positions hnone).2 c (by simp)
    have hrest : (positions rest (start + 1) (index.insert c.name start)).2 = [] := by
      simpa [positions, hfresh] using hnone
    have hstep : (positions (c :: rest) start index).1 =
        (positions rest (start + 1) (index.insert c.name start)).1 := rfl
    rw [hstep, ih hrest, Table.get?_insert]
    have hshift : (∃ i d, (c :: rest)[i]? = some d ∧ d.name = name ∧ start + i = position) ↔
        (c.name = name ∧ start = position) ∨
          ∃ i d, rest[i]? = some d ∧ d.name = name ∧ start + 1 + i = position := by
      constructor
      · rintro ⟨i, d, hd, hname, hposition⟩
        cases i with
        | zero =>
          simp only [List.getElem?_cons_zero, Option.some.injEq] at hd
          exact Or.inl ⟨hd ▸ hname, hposition⟩
        | succ i => exact Or.inr ⟨i, d, by simpa using hd, hname, by omega⟩
      · rintro (⟨hname, hposition⟩ | ⟨i, d, hd, hname, hposition⟩)
        · exact ⟨0, c, rfl, hname, hposition⟩
        · exact ⟨i + 1, d, by simpa using hd, hname, by omega⟩
    rw [hshift]
    by_cases hname : name = c.name
    · have hnotIndexed : index.get? name = none := by
        simpa [Table.contains, hname] using hfresh
      rw [if_pos hname, hnotIndexed]
      simp [hname]
    · rw [if_neg hname]
      simp [Ne.symm hname]

theorem positions_of_reindex {p q : Pool} (h : p.reindex = .ok q) :
    (positions p.classes 0 Table.empty).2 = [] ∧
      q = ⟨p.classes, (positions p.classes 0 Table.empty).1⟩ := by
  unfold reindex at h
  split at h
  · rename_i index hpositions
    cases h
    rw [hpositions]
    exact ⟨rfl, rfl⟩
  · cases h

/-- An index can only be rebuilt if the classes have different names. -/
theorem nodup_of_reindex {p q : Pool} (h : p.reindex = .ok q) : p.names.Nodup :=
  (nodup_of_positions (positions_of_reindex h).1).1

/-- With a rebuilt index a class is found under its name. -/
theorem get?_of_reindex {p q : Pool} (h : p.reindex = .ok q) {name : String} {c : Class} :
    q.get? name = some c ↔ c ∈ p.classes ∧ c.name = name := by
  obtain ⟨hnone, rfl⟩ := positions_of_reindex h
  have hindex : ∀ {i}, (positions p.classes 0 Table.empty).1.get? name = some i ↔
      ∃ d, p.classes[i]? = some d ∧ d.name = name := by
    intro i
    rw [get?_positions hnone]
    constructor
    · rintro (hempty | ⟨j, d, hd, hname, hj⟩)
      · simp at hempty
      · have hsame : j = i := by omega
        exact ⟨d, hsame ▸ hd, hname⟩
    · rintro ⟨d, hd, hname⟩
      exact Or.inr ⟨i, d, hd, hname, by omega⟩
  simp only [get?, Option.bind_eq_some_iff, hindex]
  constructor
  · rintro ⟨i, ⟨d, hd, hname⟩, hc⟩
    rw [hd] at hc
    cases hc
    exact ⟨List.mem_of_getElem? hd, hname⟩
  · rintro ⟨hmem, hname⟩
    obtain ⟨i, hi⟩ := List.mem_iff_getElem?.mp hmem
    exact ⟨i, ⟨c, hi, hname⟩, hi⟩

theorem exists_get?_of_contains {p q : Pool} (h : p.reindex = .ok q) {name : String}
    (hname : q.contains name = true) : ∃ c, q.get? name = some c := by
  obtain ⟨position, hposition⟩ := Option.isSome_iff_exists.mp hname
  obtain ⟨hnone, hq⟩ := positions_of_reindex h
  rw [hq] at hposition
  rcases (get?_positions hnone).mp hposition with hempty | ⟨i, c, hc, hsame, -⟩
  · simp at hempty
  · exact ⟨c, (get?_of_reindex h).mpr ⟨List.mem_of_getElem? hc, hsame⟩⟩

end Classmith.Pool
