import Classmith.Proofs.Rename.Inheritance
import Classmith.Rename.Remapper
import Classmith.Signature.Rename

/-!
# Remappers at work

A pass carries out one renaming on every class, the pending one. The inherited field renames that it
uses are those of the classes and field renames at hand, however they came to be there.
-/
namespace Classmith

namespace Pool

theorem classes_reindex {p q : Pool} (h : p.reindex = .ok q) : q.classes = p.classes := by
  unfold reindex at h
  split at h
  · cases h
    rfl
  · simp at h

theorem positions_of_nodup {classes : List Class} (hnodup : (classes.map (·.name)).Nodup)
    {position : Nat} {index : Table Nat} (hfresh : ∀ c ∈ classes, index.contains c.name = false) :
    (positions classes position index).2 = [] := by
  induction classes generalizing position index with
  | nil => rfl
  | cons c rest ih =>
    obtain ⟨hnot, hrest⟩ := List.nodup_cons.mp hnodup
    have hlater : (positions rest (position + 1) (index.insert c.name position)).2 = [] := by
      apply ih hrest
      intro d hd
      have hne : d.name ≠ c.name := fun heq => hnot (List.mem_map.mpr ⟨d, hd, heq⟩)
      have hd := hfresh d (List.mem_cons_of_mem c hd)
      simpa [Table.contains, hne] using hd
    simp [positions, hfresh c (by simp), hlater]

theorem reindex_of_nodup {p : Pool} (h : p.names.Nodup) : ∃ q, p.reindex = .ok q := by
  have hrepeated : (positions p.classes 0 Table.empty).2 = [] :=
    positions_of_nodup h fun c _ => rfl
  unfold reindex
  split
  · exact ⟨_, rfl⟩
  · rename_i index repeated hnonempty hpositions
    rw [hpositions] at hrepeated
    exact absurd hrepeated hnonempty

end Pool

namespace Remapper

/-- The renaming that a remapper is about to carry out. -/
def pending (r : Remapper) : Renaming := ⟨r.classes, r.refresh.inherited, r.methods⟩

theorem refresh_targets (r : Remapper) : r.refresh.targets = r.targets := by
  unfold refresh
  split <;> rfl

theorem refresh_classes (r : Remapper) : r.refresh.classes = r.classes := by
  unfold refresh
  split <;> rfl

theorem refresh_methods (r : Remapper) : r.refresh.methods = r.methods := by
  unfold refresh
  split <;> rfl

/-- Whether or not it succeeds, a pass carries out the renaming on every class in its place. -/
theorem classes_process (r : Remapper) :
    r.process.2.targets.classes = r.targets.classes.map r.pending.apply := by
  simp only [process, r.refresh_targets, r.refresh_classes, r.refresh_methods]
  split
  · rename_i targets hindex
    exact Pool.classes_reindex hindex
  · rfl

/-- A pass succeeds if the classes have different names after it. -/
theorem process_of_nodup {r : Remapper}
    (h : ((r.targets.classes.map r.pending.apply).map (·.name)).Nodup) :
    ∃ targets, r.process = (.ok (), { new with targets }) := by
  have hnodup : (r.targets.mapClasses r.pending.apply).names.Nodup := h
  obtain ⟨targets, hindex⟩ := Pool.reindex_of_nodup hnodup
  refine ⟨targets, ?_⟩
  simp only [pending] at hindex
  simp only [process, r.refresh_targets, r.refresh_classes, r.refresh_methods, hindex]

theorem reindex_of_process {r r' : Remapper} (h : r.process = (.ok (), r')) :
    (r.targets.mapClasses r.pending.apply).reindex = .ok r'.targets := by
  simp only [process, r.refresh_targets, r.refresh_classes, r.refresh_methods] at h
  split at h
  · rename_i targets hindex
    cases h
    exact hindex
  · cases h

/-! ## Inherited renames -/

/-- Unless they are to be worked out again, the inherited renames are those of the classes and field
renames at hand. -/
def Current (r : Remapper) : Prop :=
  r.stale = false → r.inherited = inheritedFields r.targets.classes r.fields

theorem Current.pending_fields {r : Remapper} (h : r.Current) :
    r.pending.fields = inheritedFields r.targets.classes r.fields := by
  unfold pending refresh
  cases hstale : r.stale with
  | true => rfl
  | false => exact h hstale

theorem inheritedFields_empty (classes : List Class) :
    inheritedFields classes MemberTable.empty = MemberTable.empty := by
  have hentries : inheritedEntries classes MemberTable.empty = [] := by
    simp [inheritedEntries]
  rw [inheritedFields_eq, hentries]
  rfl

theorem current_withTargets (targets : Pool) : Current { new with targets } :=
  fun _ => (inheritedFields_empty targets.classes).symm

/-- Classes with different names can be added to a remapper that has none of their names. -/
theorem addTargets_of_nodup {classes : List Class} (hnodup : (classes.map (·.name)).Nodup)
    {r : Remapper} (hfresh : ∀ c ∈ classes, r.targets.contains c.name = false) (hr : r.Current) :
    ∃ r', r.addTargets classes = (.ok (), r') ∧ r'.targets.classes = r.targets.classes ++ classes ∧
      r'.classes = r.classes ∧ r'.fields = r.fields ∧ r'.methods = r.methods ∧ r'.Current := by
  induction classes generalizing r with
  | nil => exact ⟨r, rfl, by simp, rfl, rfl, rfl, hr⟩
  | cons c rest ih =>
    obtain ⟨hnot, hrest⟩ := List.nodup_cons.mp hnodup
    let targets : Pool :=
      ⟨r.targets.classes ++ [c], r.targets.index.insert c.name r.targets.classes.length⟩
    have hadd : r.addTarget c = .ok { r with targets, stale := true } := by
      have hname : r.targets.index.contains c.name = false := hfresh c (by simp)
      simp [addTarget, Pool.insert, hname, Except.map, targets]
    have hlater : ∀ d ∈ rest, targets.contains d.name = false := by
      intro d hd
      have hne : d.name ≠ c.name := fun heq => hnot (List.mem_map.mpr ⟨d, hd, heq⟩)
      have hold := hfresh d (List.mem_cons_of_mem c hd)
      simp only [Pool.contains, Table.contains] at hold
      simp [targets, Pool.contains, Table.contains, hne, hold]
    obtain ⟨r', hall, hclasses, hrenames⟩ :=
      ih hrest (r := { r with targets, stale := true }) hlater (fun hstale => by cases hstale)
    refine ⟨r', ?_, ?_, hrenames⟩
    · rw [addTargets, hadd]
      exact hall
    · rw [hclasses]
      simp [targets]

end Remapper

end Classmith
