import Mathlib.Data.List.Nodup
import Classmith.Platform
import Classmith.Proofs.Hierarchy.Correspondence
import Classmith.Proofs.Pools
import Classmith.Proofs.Rename.Operations
import Classmith.Proofs.Rename.References

/-!
# Renaming keeps the hierarchy

A pass that renames classes leaves their hierarchy as it was. The name of a class and the names of its
supertypes are replaced in different places, and the classes of the platform are not replaced at all; that
all of them still fit together takes new names that are new.
-/
namespace Classmith

open Hierarchy (Mirrors)
open Signature (newName)

/-- The classes that a remapper holds, with those of the platform behind them. -/
def Remapper.hierarchy (r : Remapper) : Hierarchy := ⟨r.targets, Platform.loader⟩

/-- The name of a class and the names of its supertypes. -/
def ClassInfo.mentioned (info : ClassInfo) : List String := info.name :: info.supertypes

namespace ClassInfo

variable {info : ClassInfo}

theorem name_mem_mentioned : info.name ∈ info.mentioned := List.mem_cons_self

theorem mem_mentioned_of_superName {above : String} (h : info.superName = some above) :
    above ∈ info.mentioned :=
  List.mem_cons_of_mem _ (mem_supertypes.mpr (Or.inl h))

theorem mem_mentioned_of_interfaces {above : String} (h : above ∈ info.interfaces) :
    above ∈ info.mentioned :=
  List.mem_cons_of_mem _ (mem_supertypes.mpr (Or.inr h))

end ClassInfo

/-- The class renames of a remapper do not run into names that are in use. -/
structure Remapper.RenamesApart (r : Remapper) : Prop where
  /-- The classes have different names and are found under them. -/
  indexed : Pool.ofClasses r.targets.classes = .ok r.targets
  noArrays : ∀ c ∈ r.targets.classes, ∀ name ∈ (ClassInfo.ofClass c).mentioned,
    Descriptor.isArray name = false
  registered : ∀ old, r.classes.contains old = true → r.targets.contains old = true
  notPlatform : ∀ old, r.classes.contains old = true → ∀ info ∈ Platform.infos, info.name ≠ old
  notRoot : r.classes.contains ClassInfo.rootName = false
  distinct : ∀ a b new, r.classes.get? a = some new → r.classes.get? b = some new → a = b
  /-- No class at hand has or names a new name. -/
  fresh : ∀ old new, r.classes.get? old = some new → ∀ c ∈ r.targets.classes,
    new ∉ (ClassInfo.ofClass c).mentioned
  freshPlatform : ∀ old new, r.classes.get? old = some new → ∀ info ∈ Platform.infos,
    new ∉ info.mentioned

/-- The platform is told in its own names. -/
theorem Platform.mentioned_eq_root_or_mem {info : ClassInfo} (hinfo : info ∈ Platform.infos)
    {name : String} (hname : name ∈ info.mentioned) :
    name = ClassInfo.rootName ∨ ∃ other ∈ Platform.infos, other.name = name := by
  have hall : (Platform.infos.all fun info => info.supertypes.all fun name =>
      name == ClassInfo.rootName || Platform.infos.any fun other => other.name == name) = true := by
    decide +kernel
  simp only [List.all_eq_true, Bool.or_eq_true, List.any_eq_true, beq_iff_eq] at hall
  rcases List.mem_cons.mp hname with rfl | hsuper
  · exact Or.inr ⟨info, hinfo, rfl⟩
  · exact hall info hinfo name hsuper

theorem Platform.mem_of_find {name : String} {info : ClassInfo}
    (hfind : Platform.loader.find name = some info) : info ∈ Platform.infos := by
  have hlist : Platform.infos.find? (fun other => other.name = name) = some info := hfind
  exact List.mem_of_find?_eq_some hlist

theorem Signature.newName_of_not_contains {classes : ClassTable} {name : String}
    (h : classes.contains name = false) : newName classes name = name := by
  have hnone : classes.get? name = none := by simpa [Table.contains] using h
  rw [newName, hnone, Option.getD_none]

/-- What a pass makes of a class, as far as queries are concerned. -/
theorem ClassInfo.ofClass_apply (r : Renaming) (c : Class)
    (harrays : ∀ name ∈ (ClassInfo.ofClass c).mentioned, Descriptor.isArray name = false) :
    ClassInfo.ofClass (r.apply c) = (ClassInfo.ofClass c).rename (newName r.classes) := by
  have hsuper : c.superName.map r.classRef = c.superName.map (newName r.classes) := by
    cases hname : c.superName with
    | none => rfl
    | some above =>
      have habove : Descriptor.isArray above = false :=
        harrays above (mem_mentioned_of_superName hname)
      rw [Option.map_some, Option.map_some, r.classRef_of_not_isArray habove]
  have hinterfaces : c.interfaces.map r.classRef = c.interfaces.map (newName r.classes) := by
    apply List.map_congr_left
    intro above habove
    exact r.classRef_of_not_isArray (harrays above (mem_mentioned_of_interfaces habove))
  change ClassInfo.mk _ (c.superName.map r.classRef) (c.interfaces.map r.classRef) _ = _
  rw [hsuper, hinterfaces]
  rfl

namespace Remapper

namespace RenamesApart

variable {r : Remapper} (hr : r.RenamesApart)

include hr

theorem get?_targets {name : String} {c : Class} :
    r.targets.get? name = some c ↔ c ∈ r.targets.classes ∧ c.name = name :=
  Pool.get?_of_reindex hr.indexed

theorem newName_injective {a b : String} (ha : ∀ old, r.classes.get? old ≠ some a)
    (hb : ∀ old, r.classes.get? old ≠ some b) (heq : newName r.classes a = newName r.classes b) :
    a = b := by
  unfold newName at heq
  cases hgetA : r.classes.get? a with
  | none =>
    cases hgetB : r.classes.get? b with
    | none => rwa [hgetA, hgetB] at heq
    | some new =>
      rw [hgetA, hgetB, Option.getD_none, Option.getD_some] at heq
      exact absurd (heq ▸ hgetB) (ha b)
  | some new =>
    cases hgetB : r.classes.get? b with
    | none =>
      rw [hgetA, hgetB, Option.getD_none, Option.getD_some] at heq
      exact absurd (heq ▸ hgetA) (hb a)
    | some other =>
      rw [hgetA, hgetB, Option.getD_some, Option.getD_some] at heq
      exact hr.distinct a b new hgetA (heq ▸ hgetB)

theorem old_of_mem {c : Class} (hc : c ∈ r.targets.classes) {name : String}
    (hname : name ∈ (ClassInfo.ofClass c).mentioned) (old : String) :
    r.classes.get? old ≠ some name :=
  fun hget => hr.fresh old name hget c hc hname

theorem old_of_platform {info : ClassInfo} (hinfo : info ∈ Platform.infos) {name : String}
    (hname : name ∈ info.mentioned) (old : String) : r.classes.get? old ≠ some name :=
  fun hget => hr.freshPlatform old name hget info hinfo hname

theorem old_root (old : String) : r.classes.get? old ≠ some ClassInfo.rootName := by
  have hinfo : Platform.interfaceInfo "java/io/Serializable" [] ∈ Platform.infos := List.mem_cons_self
  exact hr.old_of_platform hinfo (ClassInfo.mem_mentioned_of_superName rfl) old

theorem newName_root : newName r.classes ClassInfo.rootName = ClassInfo.rootName :=
  Signature.newName_of_not_contains hr.notRoot

theorem newName_platform {info : ClassInfo} (hinfo : info ∈ Platform.infos) {name : String}
    (hname : name ∈ info.mentioned) : newName r.classes name = name := by
  apply Signature.newName_of_not_contains
  rcases Platform.mentioned_eq_root_or_mem hinfo hname with rfl | ⟨other, hother, hsame⟩
  · exact hr.notRoot
  · exact Bool.eq_false_iff.mpr fun hcontains => hr.notPlatform name hcontains other hother hsame

theorem rename_platform {info : ClassInfo} (hinfo : info ∈ Platform.infos) :
    info.rename (newName r.classes) = info := by
  have hname : newName r.classes info.name = info.name :=
    hr.newName_platform hinfo ClassInfo.name_mem_mentioned
  have hsuper : info.superName.map (newName r.classes) = info.superName := by
    cases habove : info.superName with
    | none => rfl
    | some above =>
      rw [Option.map_some, hr.newName_platform hinfo (ClassInfo.mem_mentioned_of_superName habove)]
  have hinterfaces : info.interfaces.map (newName r.classes) = info.interfaces := by
    rw [List.map_congr_left (g := id), List.map_id]
    intro above habove
    exact hr.newName_platform hinfo (ClassInfo.mem_mentioned_of_interfaces habove)
  rw [ClassInfo.rename, hname, hsuper, hinterfaces]

/-- The pass succeeds, since different classes get different names. -/
theorem process_ok : ∃ r', r.process = (.ok (), r') := by
  have hnames : (r.targets.classes.map r.pending.apply).map (·.name) =
      r.targets.names.map (newName r.classes) := by
    rw [List.map_map, Pool.names, List.map_map]
    rfl
  have hnodup : ((r.targets.classes.map r.pending.apply).map (·.name)).Nodup := by
    rw [hnames]
    refine List.Nodup.map_on ?_ (Pool.nodup_of_reindex hr.indexed)
    intro a ha b hb heq
    obtain ⟨c, hc, rfl⟩ := List.mem_map.mp ha
    obtain ⟨d, hd, rfl⟩ := List.mem_map.mp hb
    exact hr.newName_injective (hr.old_of_mem hc ClassInfo.name_mem_mentioned)
      (hr.old_of_mem hd ClassInfo.name_mem_mentioned) heq
  obtain ⟨targets, hprocess⟩ := process_of_nodup hnodup
  exact ⟨_, hprocess⟩

variable {r' : Remapper} (hprocess : r.process = (.ok (), r'))

include hprocess

/-- A registered class is found under its new name. -/
theorem get?_renamed {name : String} {c : Class} (hc : r.targets.get? name = some c) :
    r'.targets.get? (newName r.classes name) = some (r.pending.apply c) := by
  obtain ⟨hmem, rfl⟩ := hr.get?_targets.mp hc
  exact (Pool.get?_of_reindex (reindex_of_process hprocess)).mpr ⟨List.mem_map.mpr ⟨c, hmem, rfl⟩, rfl⟩

/-- A name that no class had is no class's name afterwards, unless it is a new name. -/
theorem get?_unregistered {name : String} (hold : ∀ old, r.classes.get? old ≠ some name)
    (hnone : r.targets.get? name = none) :
    newName r.classes name = name ∧ r'.targets.get? name = none := by
  have hsame : newName r.classes name = name := by
    apply Signature.newName_of_not_contains
    refine Bool.eq_false_iff.mpr fun hcontains => ?_
    obtain ⟨c, hc⟩ := Pool.exists_get?_of_contains hr.indexed (hr.registered name hcontains)
    rw [hnone] at hc
    cases hc
  refine ⟨hsame, ?_⟩
  cases hget : r'.targets.get? name with
  | none => rfl
  | some renamed =>
    obtain ⟨hmem, hname⟩ := (Pool.get?_of_reindex (reindex_of_process hprocess)).mp hget
    obtain ⟨c, hc, rfl⟩ := List.mem_map.mp hmem
    have hnewName : newName r.classes c.name = newName r.classes name := hname.trans hsame.symm
    have hsource : c.name = name :=
      hr.newName_injective (hr.old_of_mem hc ClassInfo.name_mem_mentioned) hold hnewName
    have hfound := hr.get?_targets.mpr ⟨hc, hsource⟩
    rw [hnone] at hfound
    cases hfound

/-- After the pass the hierarchy is the old one in new names. -/
theorem mirrors : Mirrors r.hierarchy r'.hierarchy (newName r.classes)
    (fun name => ∀ old, r.classes.get? old ≠ some name) where
  lookup name hold := by
    by_cases hroot : name = ClassInfo.rootName
    · rw [hroot, hr.newName_root, Hierarchy.lookup?_root, Hierarchy.lookup?_root, Option.map_some,
        ClassInfo.rename]
      simp [ClassInfo.root, hr.newName_root]
    · have hroot' : newName r.classes name ≠ ClassInfo.rootName := by
        intro heq
        rw [← hr.newName_root] at heq
        exact hroot (hr.newName_injective hold hr.old_root heq)
      rw [Hierarchy.lookup?, Hierarchy.lookup?, if_neg hroot, if_neg hroot']
      cases hget : r.targets.get? name with
      | some c =>
        obtain ⟨hc, -⟩ := hr.get?_targets.mp hget
        have hnew : r'.hierarchy.pool.get? (newName r.classes name) = some (r.pending.apply c) :=
          hr.get?_renamed hprocess hget
        have hbefore : r.hierarchy.pool.get? name = some c := hget
        rw [hnew, hbefore]
        exact congrArg some (ClassInfo.ofClass_apply r.pending c (hr.noArrays c hc))
      | none =>
        obtain ⟨hsame, hnone⟩ := hr.get?_unregistered hprocess hold hget
        have hafter : r'.hierarchy.pool.get? name = none := hnone
        have hbefore : r.hierarchy.pool.get? name = none := hget
        rw [hsame, hafter, hbefore]
        change Platform.loader.find name = (Platform.loader.find name).map _
        cases hfind : Platform.loader.find name with
        | none => rfl
        | some info =>
          rw [Option.map_some, hr.rename_platform (Platform.mem_of_find hfind)]
  closed name info hold hlookup := by
    have hmentioned : ∀ other ∈ info.mentioned, ∀ old, r.classes.get? old ≠ some other := by
      unfold Hierarchy.lookup? at hlookup
      split at hlookup
      · cases hlookup
        intro other hother
        have hroot : other = ClassInfo.rootName := by
          simpa [ClassInfo.mentioned, ClassInfo.supertypes, ClassInfo.root] using hother
        rw [hroot]
        exact hr.old_root
      · rcases Option.or_eq_some_iff.mp hlookup with hpool | ⟨-, hloader⟩
        · obtain ⟨c, hc, rfl⟩ := Option.map_eq_some_iff.mp hpool
          exact fun other hother => hr.old_of_mem (hr.get?_targets.mp hc).1 hother
        · exact fun other hother => hr.old_of_platform (Platform.mem_of_find hloader) hother
    exact ⟨hmentioned info.name ClassInfo.name_mem_mentioned,
      fun above habove => hmentioned above (List.mem_cons_of_mem _ habove)⟩
  injective a b ha hb heq := hr.newName_injective ha hb heq
  oldRoot := hr.old_root
  root := hr.newName_root

end RenamesApart

end Remapper

/-- A pass whose class renames do not run into names that are in use succeeds, and every query about new
names then gives the old answer in new names: the same truth value, the same interfaces, the same common
superclass, or the same failure. -/
theorem renaming_keeps_hierarchy {r : Remapper} (hr : r.RenamesApart) :
    ∃ r', r.process = (.ok (), r') ∧
      ∀ a b, (∀ old, r.classes.get? old ≠ some a) → (∀ old, r.classes.get? old ≠ some b) →
        ∀ before after,
          r'.hierarchy.answerAfter after
              (r'.hierarchy.isSubtype (newName r.classes a) (newName r.classes b)) =
            renamedAnswer (newName r.classes) id
              (r.hierarchy.answerAfter before (r.hierarchy.isSubtype a b)) ∧
          r'.hierarchy.answerAfter after (r'.hierarchy.allInterfaces (newName r.classes a)) =
            renamedAnswer (newName r.classes) (NameSet.image (newName r.classes))
              (r.hierarchy.answerAfter before (r.hierarchy.allInterfaces a)) ∧
          (r'.hierarchy.answerAfter after
              (r'.hierarchy.commonSuperclass (newName r.classes a) (newName r.classes b))).map
                (fun info => info.name) =
            renamedAnswer (newName r.classes) (newName r.classes)
              ((r.hierarchy.answerAfter before (r.hierarchy.commonSuperclass a b)).map
                fun info => info.name) := by
  obtain ⟨r', hprocess⟩ := hr.process_ok
  have hm := hr.mirrors hprocess
  refine ⟨r', hprocess, fun a b ha hb before after => ⟨?_, ?_, ?_⟩⟩
  · rw [(Hierarchy.answers_isSubtype _ _).answerAfter, (Hierarchy.answers_isSubtype _ _).answerAfter]
    exact hm.isSubtype ha hb
  · rw [(Hierarchy.answers_allInterfaces _).answerAfter, (Hierarchy.answers_allInterfaces _).answerAfter]
    exact hm.collect ha hm.sameLeft_names
  · rw [(Hierarchy.answers_commonSuperclass _ _).answerAfter,
      (Hierarchy.answers_commonSuperclass _ _).answerAfter, hm.commonSuperclass ha hb]
    cases Plain.commonSuperclass r.hierarchy a b <;> rfl

namespace Samples

/-- A class and its interface get new names; the class below it and the interface of the platform keep
theirs. -/
def moveShapes : Remapper := Remapper.run [
  .addTargets [
    { name := "p/Shape", access := 0x0601, superName := some "java/lang/Object" },
    { name := "p/Base", superName := some "java/lang/Object",
      interfaces := ["java/lang/Runnable", "p/Shape"] },
    { name := "p/Round", superName := some "p/Base" }],
  .renameClass "p/Shape" "q/Form",
  .renameClass "p/Base" "q/Root"]

theorem renamesApart_moveShapes : moveShapes.RenamesApart where
  indexed := rfl
  noArrays := by decide +kernel
  registered old hold := by
    have hall : ∀ old ∈ moveShapes.classes.keys, moveShapes.targets.contains old = true := by
      decide +kernel
    exact hall old ((Table.mem_keys_iff _).mpr hold)
  notPlatform old hold := by
    have hall : ∀ old ∈ moveShapes.classes.keys, ∀ info ∈ Platform.infos, info.name ≠ old := by
      decide +kernel
    exact hall old ((Table.mem_keys_iff _).mpr hold)
  notRoot := by decide +kernel
  distinct a b new ha hb := by
    have hall : ∀ e ∈ moveShapes.classes.entries, ∀ e' ∈ moveShapes.classes.entries,
        e.2 = e'.2 → e.1 = e'.1 := by
      decide +kernel
    exact hall _ ((Table.get?_eq_some_iff _).mp ha) _ ((Table.get?_eq_some_iff _).mp hb) rfl
  fresh old new hget := by
    have hall : ∀ e ∈ moveShapes.classes.entries, ∀ c ∈ moveShapes.targets.classes,
        e.2 ∉ (ClassInfo.ofClass c).mentioned := by
      decide +kernel
    exact hall _ ((Table.get?_eq_some_iff _).mp hget)
  freshPlatform old new hget := by
    have hall : ∀ e ∈ moveShapes.classes.entries, ∀ info ∈ Platform.infos, e.2 ∉ info.mentioned := by
      decide +kernel
    exact hall _ ((Table.get?_eq_some_iff _).mp hget)

end Samples

open Samples in
theorem renaming_keeps_hierarchy_moveShapes : ∃ r', moveShapes.process = (.ok (), r') ∧
    (r'.hierarchy.answerAfter [] (r'.hierarchy.isSubtype "q/Form" "p/Round")).toOption = some true := by
  obtain ⟨r', hprocess, hkeeps⟩ := renaming_keeps_hierarchy renamesApart_moveShapes
  have hold : ∀ name, name ∉ moveShapes.classes.entries.map (fun e => e.2) →
      ∀ old, moveShapes.classes.get? old ≠ some name := by
    intro name hnot old hget
    exact hnot (List.mem_map.mpr ⟨_, (Table.get?_eq_some_iff _).mp hget, rfl⟩)
  obtain ⟨hsubtype, -, -⟩ := hkeeps "p/Shape" "p/Round" (hold _ (by decide +kernel))
    (hold _ (by decide +kernel)) [] []
  have hform : newName moveShapes.classes "p/Shape" = "q/Form" := by decide +kernel
  have hround : newName moveShapes.classes "p/Round" = "p/Round" := by decide +kernel
  rw [hform, hround] at hsubtype
  refine ⟨r', hprocess, ?_⟩
  rw [hsubtype]
  decide +kernel

end Classmith
