import Mathlib.Data.List.Duplicate
import Classmith.Proofs.PoolOperations
import Classmith.Proofs.Rename.Remapper
import Classmith.Proofs.Rename.Replacement
import Classmith.Proofs.Signature.Renaming

/-!
# Classes that get the same name

A pass renames the classes first and looks for names met again afterwards, when the index is rebuilt. It fails
exactly if several classes have got one name, and by then it has renamed everything and forgotten all renames.
-/
namespace Classmith

theorem NameSet.toNames_ascending (s : NameSet) : s.toNames.Pairwise (· < ·) :=
  List.pairwise_map.mpr s.ascending

namespace Pool

/-- A name is met again if it has been indexed before or if several of the classes have it. -/
theorem mem_positions_iff {classes : List Class} {start : Nat} {index : Table Nat} {name : String} :
    name ∈ (positions classes start index).2 ↔
      index.contains name = true ∧ name ∈ classes.map (·.name) ∨
        (classes.map (·.name)).Duplicate name := by
  induction classes generalizing start index with
  | nil => simp [positions]
  | cons c rest ih =>
    have hindex : (index.insert c.name start).contains name = true ↔
        name = c.name ∨ index.contains name = true := by
      by_cases hname : name = c.name <;> simp [Table.contains, hname]
    have hmet : name ∈ (positions (c :: rest) start index).2 ↔
        index.contains c.name = true ∧ name = c.name ∨
          name ∈ (positions rest (start + 1) (index.insert c.name start)).2 := by
      cases hcontains : index.contains c.name <;> simp [positions, hcontains]
    rw [hmet, ih, hindex, List.map_cons, List.mem_cons, List.duplicate_cons_iff]
    constructor
    · rintro (⟨hc, rfl⟩ | ⟨rfl | hi, hrest⟩ | hrest)
      · exact .inl ⟨hc, .inl rfl⟩
      · exact .inr (.inl ⟨rfl, hrest⟩)
      · exact .inl ⟨hi, .inr hrest⟩
      · exact .inr (.inr hrest)
    · rintro (⟨hi, rfl | hrest⟩ | ⟨rfl, hrest⟩ | hrest)
      · exact .inl ⟨hi, rfl⟩
      · exact .inr (.inl ⟨.inr hi, hrest⟩)
      · exact .inr (.inl ⟨.inl rfl, hrest⟩)
      · exact .inr (.inr hrest)

theorem mem_repeated_iff {p : Pool} {name : String} :
    name ∈ (positions p.classes 0 Table.empty).2 ↔ p.names.Duplicate name := by
  rw [mem_positions_iff]
  simp [Table.contains, names]

theorem exists_reindex_iff {p : Pool} : (∃ q, p.reindex = .ok q) ↔ p.names.Nodup :=
  ⟨fun ⟨_, hindex⟩ => nodup_of_reindex hindex, reindex_of_nodup⟩

/-- An index that cannot be rebuilt tells the names that several classes have, each once and in ascending
order. -/
theorem of_reindex_error {p : Pool} {e : Error} (h : p.reindex = .error e) :
    ∃ names : List String, e = .duplicate names ∧ names.Pairwise (· < ·) ∧
      ∀ name, name ∈ names ↔ p.names.Duplicate name := by
  unfold reindex at h
  split at h
  · cases h
  · rename_i index repeated hnonempty hpositions
    cases h
    refine ⟨_, rfl, NameSet.toNames_ascending _, fun name => ?_⟩
    rw [NameSet.mem_toNames, NameSet.contains_ofNames, ← mem_repeated_iff, hpositions]

end Pool

namespace Remapper

open Signature (newName)

/-- The names that a pass gives to the classes, in the order of their registration. -/
def newNames (r : Remapper) : List String := r.targets.names.map (newName r.classes)

theorem names_mapClasses (r : Remapper) : (r.targets.mapClasses r.pending.apply).names = r.newNames := by
  rw [Pool.names, Pool.mapClasses, List.map_map, newNames, Pool.names, List.map_map]
  rfl

/-- The classes are renamed in place and the renames forgotten whether or not the index can be rebuilt. -/
theorem process_eq (r : Remapper) :
    r.process = ((r.targets.mapClasses r.pending.apply).reindex.map fun _ => (),
      { new with
        targets := (r.targets.mapClasses r.pending.apply).reindex.toOption.getD
          (r.targets.mapClasses r.pending.apply) }) := by
  simp only [process, pending, r.refresh_targets, r.refresh_classes, r.refresh_methods]
  cases (r.targets.mapClasses (Renaming.apply ⟨r.classes, r.refresh.inherited, r.methods⟩)).reindex with
  | ok targets => rfl
  | error e => rfl

theorem process_error_iff {r : Remapper} {e : Error} :
    r.process.1 = .error e ↔ (r.targets.mapClasses r.pending.apply).reindex = .error e := by
  rw [process_eq]
  cases (r.targets.mapClasses r.pending.apply).reindex with
  | ok targets => exact ⟨nofun, nofun⟩
  | error other => simp [Except.map]

/-- After a pass that succeeds a name finds a class exactly if it is the new name of one. -/
theorem get?_process_eq_some_iff {r : Remapper} (h : r.process.1 = .ok ()) {name : String} {c : Class} :
    r.process.2.targets.get? name = some c ↔
      ∃ old ∈ r.targets.classes, newName r.classes old.name = name ∧ r.pending.apply old = c := by
  rw [Pool.get?_of_reindex (reindex_of_process (Prod.ext h rfl)), Pool.mapClasses, List.mem_map]
  constructor
  · rintro ⟨⟨old, hold, rfl⟩, hname⟩
    exact ⟨old, hold, hname, rfl⟩
  · rintro ⟨old, hold, hname, rfl⟩
    exact ⟨⟨old, hold, rfl⟩, hname⟩

theorem contains_process_iff {r : Remapper} (h : r.process.1 = .ok ()) {name : String} :
    r.process.2.targets.contains name = true ↔ name ∈ r.newNames := by
  have hindex := reindex_of_process (Prod.ext h rfl)
  constructor
  · intro hcontains
    obtain ⟨c, hc⟩ := Pool.exists_get?_of_contains hindex hcontains
    obtain ⟨hmem, rfl⟩ := (Pool.get?_of_reindex hindex).mp hc
    rw [← names_mapClasses]
    exact List.mem_map_of_mem hmem
  · intro hname
    rw [← names_mapClasses, Pool.names, List.mem_map] at hname
    obtain ⟨c, hmem, hname⟩ := hname
    have hget := (Pool.get?_of_reindex hindex).mpr ⟨hmem, hname⟩
    obtain ⟨position, hposition, -⟩ := Option.bind_eq_some_iff.mp hget
    exact Option.isSome_iff_exists.mpr ⟨position, hposition⟩

theorem rewrites_process (r : Remapper) :
    List.Forall₂ r.pending.Rewrites r.targets.classes r.process.2.targets.classes := by
  rw [r.classes_process, List.forall₂_map_right_iff, List.forall₂_same]
  exact fun c _ => r.pending.rewrites_apply c

/-- A pass fails exactly if it gives one name to several classes, and the error lists these names once each,
in ascending order and with commas between them. Whether it fails or not, every class has been renamed in its
place, with what the tables say in each place of it, and no rename is left. If it does not fail, the classes are
found under their new names and nothing is found under any other name. -/
theorem process_fails_on_collisions (r : Remapper) :
    ((∃ e, r.process.1 = .error e) ↔ ∃ name, r.newNames.Duplicate name) ∧
    (∀ e, r.process.1 = .error e → ∃ names : List String, e = .duplicate names ∧
      names.Pairwise (· < ·) ∧ (∀ name, name ∈ names ↔ r.newNames.Duplicate name) ∧
      e.message = "duplicate class " ++ ", ".intercalate names) ∧
    r.process.2.targets.classes = r.targets.classes.map r.pending.apply ∧
    List.Forall₂ r.pending.Rewrites r.targets.classes r.process.2.targets.classes ∧
    (r.process.2.classes = Table.empty ∧ r.process.2.fields = MemberTable.empty ∧
      r.process.2.methods = MemberTable.empty ∧ r.process.2.inherited = MemberTable.empty) ∧
    (r.process.1 = .ok () →
      (∀ c ∈ r.targets.classes,
        r.process.2.targets.get? (newName r.classes c.name) = some (r.pending.apply c)) ∧
      ∀ name, name ∉ r.newNames →
        r.process.2.targets.get? name = none ∧ r.process.2.targets.contains name = false) := by
  refine ⟨?_, ?_, r.classes_process, r.rewrites_process, ?_, ?_⟩
  · simp only [process_error_iff, List.exists_duplicate_iff_not_nodup, ← names_mapClasses,
      ← Pool.exists_reindex_iff]
    cases (r.targets.mapClasses r.pending.apply).reindex with
    | ok q => simp
    | error e => simp
  · intro e he
    obtain ⟨names, rfl, hascending, hmem⟩ := Pool.of_reindex_error (process_error_iff.mp he)
    exact ⟨names, rfl, hascending, fun name => by rw [hmem, names_mapClasses], rfl⟩
  · rw [process_eq]
    exact ⟨rfl, rfl, rfl, rfl⟩
  · intro hok
    refine ⟨fun c hc => (get?_process_eq_some_iff hok).mpr ⟨c, hc, rfl, rfl⟩, fun name hname => ?_⟩
    have hcontains : r.process.2.targets.contains name = false :=
      Bool.eq_false_iff.mpr fun hcontains => hname ((contains_process_iff hok).mp hcontains)
    exact ⟨(Pool.absent_of_not_contains hcontains).1, hcontains⟩

/-- Two classes may exchange their names, but not get one name, and of three the name is listed once. -/
example :
    let r := (new.addTargets [{ name := "p/A" }, { name := "p/B" }, { name := "p/C" }]).2
    let exchange := (r.renameClass "p/A" "p/B").renameClass "p/B" "p/A"
    let clash := (r.renameClass "p/A" "p/C").renameClass "p/B" "p/C"
    exchange.process.1 = .ok () ∧ exchange.process.2.targets.names = ["p/B", "p/A", "p/C"] ∧
      clash.process.1 = .error (.duplicate ["p/C"]) ∧
      clash.process.2.targets.names = ["p/C", "p/C", "p/C"] := by
  decide +kernel

end Remapper

namespace Samples

/-- Two classes that are to get one name. The first has a method that is renamed and calls itself. -/
def clash : Remapper :=
  { Remapper.new with
    targets := ⟨[
      { name := "p/A"
        methods := [{
          name := "run", descriptor := "(Lp/B;)V", exceptions := ["p/B"]
          instructions := [.method 0xb6 "p/A" "run" "(Lp/B;)V" false, .method 0xb6 "[Lp/B;" "run" "()V" false] }] },
      { name := "p/B" }], (Table.empty.insert "p/A" 0).insert "p/B" 1⟩
    classes := (Table.empty.insert "p/A" "p/C").insert "p/B" "p/C"
    methods := (MemberTable.empty.insert "p/A" "(Lp/B;)V" "run" "start").insert "[Lp/B;" "()V" "run" "start" }

end Samples

open Samples in
theorem Remapper.process_fails_on_collisions_clash :
    (∃ e, clash.process.1 = .error e) ∧
    List.Forall₂ clash.pending.Rewrites clash.targets.classes clash.process.2.targets.classes ∧
    clash.process.2.targets.classes = [
      { name := "p/C"
        methods := [{
          name := "start", descriptor := "(Lp/C;)V", exceptions := ["p/C"]
          instructions := [.method 0xb6 "p/C" "start" "(Lp/C;)V" false,
            .method 0xb6 "[Lp/C;" "run" "()V" false] }] },
      { name := "p/C" }] := by
  obtain ⟨hfails, -, -, hrewrites, -, -⟩ := process_fails_on_collisions clash
  exact ⟨hfails.mpr ⟨"p/C", by decide +kernel⟩, hrewrites, by rfl⟩

end Classmith
