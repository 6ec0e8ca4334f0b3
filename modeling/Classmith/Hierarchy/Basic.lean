import Classmith.Pool

/-!
# Where classes are known from

What a hierarchy query needs to know of a class, and the sources it is known from: the registered
classes first, then a loader for classes outside them.
-/
namespace Classmith

/-- The supertypes of a class. -/
structure ClassInfo where
  name : String
  /-- Absent for the root of the hierarchy. -/
  superName : Option String
  interfaces : List String
  isInterface : Bool
deriving DecidableEq, Repr, Inhabited

namespace ClassInfo

/-- The name of the root of the hierarchy. -/
def rootName : String := "java/lang/Object"

def root : ClassInfo := ⟨rootName, none, [], false⟩

def ofClass (c : Class) : ClassInfo := ⟨c.name, c.superName, c.interfaces, c.isInterface⟩

end ClassInfo

/-- A source of classes that knows only finitely many names. -/
structure Loader where
  find : String → Option ClassInfo
  domain : List String
  mem_domain : ∀ name, (find name).isSome → name ∈ domain

theorem Table.mem_keys_of_get? {α : Type} {t : Table α} {key : String} (h : (t.get? key).isSome) :
    key ∈ t.keys := by
  obtain ⟨entries, _⟩ := t
  simp only [Table.get?, Table.keys] at *
  induction entries with
  | nil => simp [Table.find] at h
  | cons head rest ih =>
    obtain ⟨k, v⟩ := head
    by_cases hk : key = k
    · simp [hk]
    · have : key ∈ rest.map (·.1) := by
        apply ih
        · exact List.Pairwise.of_cons ‹_›
        · simpa [Table.find, hk] using h
      simp only [List.map_cons, List.mem_cons]
      exact Or.inr this

namespace Loader

def empty : Loader := ⟨fun _ => none, [], by simp⟩

instance : Inhabited Loader := ⟨empty⟩

/-- The classes of a pool, by its index. -/
def ofPool (p : Pool) : Loader where
  find name := (p.get? name).map ClassInfo.ofClass
  domain := p.index.keys
  mem_domain name h := by
    apply Table.mem_keys_of_get?
    cases hget : p.index.get? name <;> simp [Pool.get?, hget] at h ⊢

/-- Asks one loader after the other. -/
def chain (loaders : List Loader) : Loader where
  find name := loaders.findSome? fun l => l.find name
  domain := loaders.flatMap Loader.domain
  mem_domain name h := by
    obtain ⟨l, hl, hfind⟩ := List.findSome?_isSome_iff.1 h
    exact List.mem_flatMap.2 ⟨l, hl, l.mem_domain name hfind⟩

/-- The classes of a list, by their names. -/
def ofInfos (infos : List ClassInfo) : Loader where
  find name := infos.find? fun info => info.name = name
  domain := infos.map (·.name)
  mem_domain name h := by
    obtain ⟨info, hmem, hname⟩ := List.find?_isSome.1 h
    exact List.mem_map.2 ⟨info, hmem, by simpa using hname⟩

end Loader

/-- The registered classes and the loader behind them. -/
structure Hierarchy where
  pool : Pool
  loader : Loader

namespace Hierarchy

/-- What is known of a class. -/
def lookup? (h : Hierarchy) (name : String) : Option ClassInfo :=
  if name = ClassInfo.rootName then some .root
  else ((h.pool.get? name).map ClassInfo.ofClass).or (h.loader.find name)

/-- Every name that the sources can know. -/
def names (h : Hierarchy) : List String :=
  ClassInfo.rootName :: h.pool.index.keys ++ h.loader.domain

end Hierarchy

end Classmith
