import Classmith.Proofs.Hierarchy.Subclasses
import Mathlib.Data.List.Nodup
import Mathlib.Data.List.Perm.Subperm

/-!
# Descents

The search for subclasses as a loop that nothing bounds: it keeps the names it has found and a stack of names whose
subclasses it has yet to look at, and goes on until the stack is empty. A name goes on the stack when it is found, and
it is found once, so the loop ends however the superclasses run in circles: there is a round for the start and one for
each name found. What it has found then is closed under taking subclasses.
-/
namespace Classmith

/-- A search under way: the names found so far, and those whose subclasses have not been looked at, last first. -/
structure Descent where
  found : List String
  pending : List String

namespace Descent

/-- The names listed below another, in ascending order. -/
def children (index : Table NameSet) (above : String) : List String :=
  ((index.get? above).getD Table.empty).toNames

/-- The names below another that have not been found, last first. -/
def fresh (index : Table NameSet) (found : List String) (above : String) : List String :=
  ((children index above).filter fun child => child ∉ found).reverse

/-- Looks at the subclasses of the last pending name: those that are new are found and become pending. -/
def round (index : Table NameSet) : Descent → Descent
  | ⟨found, []⟩ => ⟨found, []⟩
  | ⟨found, current :: pending⟩ =>
    ⟨fresh index found current ++ found, fresh index found current ++ pending⟩

/-- The search for the subclasses of a class after so many rounds. -/
def after (index : Table NameSet) (name : String) : Nat → Descent
  | 0 => ⟨[], [name]⟩
  | rounds + 1 => (after index name rounds).round index

variable {index : Table NameSet} {name : String}

theorem mem_children {above child : String} :
    child ∈ children index above ↔ isBelow index above child = true := by
  rw [children, NameSet.mem_toNames, isBelow]
  cases index.get? above with
  | none => simp [Table.contains]
  | some names => rfl

theorem nodup_children (above : String) : (children index above).Nodup := by
  have hascending := ((index.get? above).getD Table.empty).ascending
  refine List.Pairwise.imp ?_ (List.pairwise_map.mpr hascending)
  rintro a b hlt rfl
  exact String.lt_irrefl a hlt

/-! ## Rounds -/

theorem mem_fresh {found : List String} {above child : String} :
    child ∈ fresh index found above ↔ isBelow index above child = true ∧ child ∉ found := by
  simp [fresh, mem_children]

/-- What holds throughout a search: all that was found is below the class, and every name below the class or below
what was found has been found, too, unless the name above it is pending. -/
structure Explores (index : Table NameSet) (name : String) (d : Descent) : Prop where
  reached : ∀ child ∈ d.found, Relation.TransGen (fun a b => isBelow index a b = true) name child
  known : ∀ above ∈ d.pending, above = name ∨ above ∈ d.found
  followed : ∀ above child, above = name ∨ above ∈ d.found → isBelow index above child = true →
    above ∈ d.pending ∨ child ∈ d.found
  nodup : d.found.Nodup

theorem explores_start (index : Table NameSet) (name : String) : Explores index name ⟨[], [name]⟩ where
  reached := List.forall_mem_nil _
  known above habove := .inl (List.mem_singleton.mp habove)
  followed above child habove _ := by simpa using habove
  nodup := List.nodup_nil

theorem Explores.round {d : Descent} (h : Explores index name d) : Explores index name (d.round index) := by
  obtain ⟨found, pending⟩ := d
  cases pending with
  | nil => exact h
  | cons current pending =>
    rw [Descent.round]
    refine ⟨?_, ?_, ?_, ?_⟩
    · intro child hchild
      rcases List.mem_append.mp hchild with hnew | hold
      · have hbelow := (mem_fresh.mp hnew).1
        rcases h.known current List.mem_cons_self with rfl | hfound
        · exact .single hbelow
        · exact .tail (h.reached current hfound) hbelow
      · exact h.reached child hold
    · intro above habove
      rcases List.mem_append.mp habove with hnew | hold
      · exact .inr (List.mem_append_left _ hnew)
      · exact (h.known above (List.mem_cons_of_mem _ hold)).imp_right (List.mem_append_right _)
    · intro above child habove hbelow
      by_cases hchild : child ∈ found
      · exact .inr (List.mem_append_right _ hchild)
      -- a name that is new itself is pending now, and of the others only the current one has left the stack
      by_cases hnew : above ∈ fresh index found current
      · exact .inl (List.mem_append_left _ hnew)
      have hold : above = name ∨ above ∈ found :=
        habove.imp_right fun hmem => (List.mem_append.mp hmem).resolve_left hnew
      rcases h.followed above child hold hbelow with hpending | hfound
      · rcases List.mem_cons.mp hpending with rfl | hrest
        · exact .inr (List.mem_append_left _ (mem_fresh.mpr ⟨hbelow, hchild⟩))
        · exact .inl (List.mem_append_right _ hrest)
      · exact absurd hfound hchild
    · refine List.nodup_append'.mpr ⟨?_, h.nodup, ?_⟩
      · exact List.nodup_reverse.mpr ((nodup_children current).filter _)
      · exact fun child hnew => (mem_fresh.mp hnew).2

theorem explores_after (index : Table NameSet) (name : String) (rounds : Nat) :
    Explores index name (after index name rounds) := by
  induction rounds with
  | zero => exact explores_start index name
  | succ rounds ih => exact ih.round

/-- A search with nothing pending has found all names below the class. -/
theorem Explores.mem_found_iff {found : List String} (h : Explores index name ⟨found, []⟩) (child : String) :
    child ∈ found ↔ Relation.TransGen (fun a b => isBelow index a b = true) name child := by
  constructor
  · exact h.reached child
  · intro hchain
    induction hchain with
    | single hbelow => exact (h.followed _ _ (.inl rfl) hbelow).resolve_left List.not_mem_nil
    | tail _ hbelow ih => exact (h.followed _ _ (.inr ih) hbelow).resolve_left List.not_mem_nil

/-! ## The end of a search -/

/-- Each round takes one name from the stack, and the names on the stack have been found, except for the first. -/
theorem length_found_after (index : Table NameSet) (name : String) (rounds : Nat) :
    (after index name rounds).pending = [] ∨
      (after index name rounds).found.length + 1 = (after index name rounds).pending.length + rounds := by
  induction rounds with
  | zero => exact .inr rfl
  | succ rounds ih =>
    rw [after]
    generalize after index name rounds = d at ih
    obtain ⟨found, pending⟩ := d
    cases pending with
    | nil => exact .inl rfl
    | cons current pending =>
      have hlength := ih.resolve_left (List.cons_ne_nil _ _)
      refine .inr ?_
      simp only [round, List.length_append, List.length_cons] at hlength ⊢
      omega

end Descent

/-! ## Chains of superclasses -/

/-- A chain of superclasses written out: it has at least two names, and each but the last is that of a class whose
superclass is the next one. -/
theorem descends_iff_exists_chain {classes : List Class} {above name : String} :
    Descends classes above name ↔ ∃ chain : List String, 2 ≤ chain.length ∧ chain.head? = some name ∧
      chain.getLast? = some above ∧ chain.IsChain fun below above => ExtendsDirectly classes above below := by
  constructor
  · intro h
    induction h with
    | @single name hdirect =>
      exact ⟨[name, above], Nat.le_refl _, rfl, rfl, List.isChain_cons_cons.mpr ⟨hdirect, .singleton _⟩⟩
    | @tail middle name _ hdirect ih =>
      obtain ⟨chain, hlength, hhead, hlast, hchain⟩ := ih
      obtain ⟨rest, rfl⟩ := List.head?_eq_some_iff.mp hhead
      refine ⟨name :: middle :: rest, Nat.le_succ_of_le hlength, rfl, ?_, ?_⟩
      · rw [List.getLast?_cons_cons, hlast]
      · exact List.isChain_cons_cons.mpr ⟨hdirect, hchain⟩
  · rintro ⟨chain, hlength, hhead, hlast, hchain⟩
    induction chain generalizing name with
    | nil => cases hhead
    | cons first rest ih =>
      cases hhead
      cases rest with
      | nil => simp at hlength
      | cons second rest =>
        obtain ⟨hdirect, hrest⟩ := List.isChain_cons_cons.mp hchain
        rw [List.getLast?_cons_cons] at hlast
        cases rest with
        | nil =>
          cases hlast
          exact .single hdirect
        | cons third rest =>
          exact .tail (ih (by simp) rfl hlast hrest) hdirect

theorem Descent.length_found_le (classes : List Class) {name : String} {d : Descent}
    (h : Explores (subclassIndex classes) name d) : d.found.length ≤ classes.length := by
  have hsubset : d.found ⊆ classes.map Class.name := by
    intro child hchild
    obtain ⟨above, hbelow⟩ : ∃ above, isBelow (subclassIndex classes) above child = true := by
      cases h.reached child hchild with
      | single hbelow => exact ⟨_, hbelow⟩
      | tail _ hbelow => exact ⟨_, hbelow⟩
    obtain ⟨c, hc, -, hname⟩ := (isBelow_subclassIndex classes above child).mp hbelow
    exact List.mem_map.mpr ⟨c, hc, hname⟩
  have hle := (h.nodup.subperm hsubset).length_le
  rwa [List.length_map] at hle

/-- However the superclasses of the classes run, the search for the subclasses of a name is over after one round
more than there are classes, and apart from the name itself it has found the descendants. They are exactly the other
names from which a chain of superclasses leads up to the name. -/
theorem descendants_exact (classes : List Class) (name : String) :
    (∃ found, Descent.after (subclassIndex classes) name (classes.length + 1) = ⟨found, []⟩ ∧
      (NameSet.ofNames found).erase name = descendants (subclassIndex classes) name) ∧
    ∀ child, child ∈ (descendants (subclassIndex classes) name).toNames ↔
      child ≠ name ∧ ∃ chain : List String, 2 ≤ chain.length ∧ chain.head? = some child ∧
        chain.getLast? = some name ∧ chain.IsChain fun below above => ExtendsDirectly classes above below := by
  constructor
  · have hexplores := Descent.explores_after (subclassIndex classes) name (classes.length + 1)
    have hpending : (Descent.after (subclassIndex classes) name (classes.length + 1)).pending = [] := by
      rcases Descent.length_found_after (subclassIndex classes) name (classes.length + 1) with hdone | hlength
      · exact hdone
      · have hle := Descent.length_found_le classes hexplores
        exact List.length_eq_zero_iff.mp (by omega)
    generalize Descent.after (subclassIndex classes) name (classes.length + 1) = d at hexplores hpending
    obtain ⟨found, pending⟩ := d
    subst hpending
    refine ⟨found, rfl, NameSet.ext_contains fun child => ?_⟩
    have hfound := hexplores.mem_found_iff child
    rw [isBelow_subclassIndex_eq] at hfound
    rw [← NameSet.mem_toNames (descendants _ _), mem_descendants, Descends, ← hfound, ← NameSet.contains_ofNames]
    by_cases hchild : child = name <;> simp [Table.contains, hchild]
  · intro child
    rw [mem_descendants, descends_iff_exists_chain]

-- a name on a circle comes to itself, which is left out
example : (descendants (subclassIndex [{ name := "p/Hen", superName := some "p/Egg" },
    { name := "p/Egg", superName := some "p/Hen" }, { name := "p/Egg", superName := some "p/Egg" },
    { name := "p/Chick", superName := some "p/Hen" }]) "p/Egg").toNames = ["p/Chick", "p/Hen"] := by
  decide +kernel

end Classmith
