import Classmith.Hierarchy.Subclasses
import Classmith.Proofs.Tables

/-!
# Descendants

The subclasses found from an index of direct subclasses are exactly the classes from which a chain of
superclasses leads to the class asked about.
-/
namespace Classmith

/-- One of the classes has the name and the superclass given. -/
def ExtendsDirectly (classes : List Class) (above name : String) : Prop :=
  ∃ c ∈ classes, c.superName = some above ∧ c.name = name

/-- A chain of superclasses leads from the second name up to the first. -/
def Descends (classes : List Class) : String → String → Prop :=
  Relation.TransGen (ExtendsDirectly classes)

/-! ## The index -/

/-- What one class adds to the index of direct subclasses. -/
def indexClass (index : Table NameSet) (c : Class) : Table NameSet :=
  match c.superName with
  | none => index
  | some above => index.insert above (((index.get? above).getD Table.empty).add c.name)

theorem isBelow_indexClass (index : Table NameSet) (c : Class) (above name : String) :
    isBelow (indexClass index c) above name = true ↔
      (c.superName = some above ∧ c.name = name) ∨ isBelow index above name = true := by
  unfold indexClass
  cases hsuper : c.superName with
  | none => simp
  | some other =>
    by_cases habove : above = other
    · subst habove
      have hadd : isBelow (index.insert above (((index.get? above).getD Table.empty).add c.name))
          above name = true ↔ name = c.name ∨
            ((index.get? above).getD Table.empty).contains name = true := by
        by_cases hname : name = c.name <;> simp [isBelow, NameSet.add, Table.contains, hname]
      have hold : ((index.get? above).getD Table.empty).contains name = true ↔
          isBelow index above name = true := by
        cases hget : index.get? above <;> simp [isBelow, hget, Table.contains]
      rw [hadd, hold, eq_comm]
      simp
    · simp [isBelow, habove, Ne.symm habove]

theorem isBelow_foldl_indexClass (classes : List Class) (index : Table NameSet)
    (above name : String) :
    isBelow (classes.foldl indexClass index) above name = true ↔
      ExtendsDirectly classes above name ∨ isBelow index above name = true := by
  induction classes generalizing index with
  | nil => simp [ExtendsDirectly]
  | cons c rest ih =>
    rw [List.foldl_cons, ih, isBelow_indexClass]
    simp only [ExtendsDirectly, List.mem_cons, exists_eq_or_imp]
    constructor
    · rintro (h | h | h)
      · exact Or.inl (Or.inr h)
      · exact Or.inl (Or.inl h)
      · exact Or.inr h
    · rintro ((h | h) | h)
      · exact Or.inr (Or.inl h)
      · exact Or.inl h
      · exact Or.inr (Or.inr h)

theorem isBelow_subclassIndex (classes : List Class) (above name : String) :
    isBelow (subclassIndex classes) above name = true ↔ ExtendsDirectly classes above name := by
  have hindex : subclassIndex classes = classes.foldl indexClass Table.empty := rfl
  rw [hindex, isBelow_foldl_indexClass]
  simp [isBelow]

theorem isBelow_subclassIndex_eq (classes : List Class) :
    (fun above name => isBelow (subclassIndex classes) above name = true) = ExtendsDirectly classes := by
  funext above name
  exact propext (isBelow_subclassIndex classes above name)

theorem contains_foldl_join (l : List (String × NameSet)) (all : NameSet) (name : String) :
    Table.contains (l.foldl (fun (all : NameSet) entry => all.join entry.2) all) name = true ↔
      (∃ entry ∈ l, entry.2.contains name = true) ∨ all.contains name = true := by
  induction l generalizing all with
  | nil => simp
  | cons head rest ih =>
    rw [List.foldl_cons, ih, NameSet.contains_join]
    simp only [List.mem_cons, exists_eq_or_imp]
    constructor
    · rintro (h | h | h)
      · exact Or.inl (Or.inr h)
      · exact Or.inl (Or.inl h)
      · exact Or.inr h
    · rintro ((h | h) | h)
      · exact Or.inr (Or.inl h)
      · exact Or.inl h
      · exact Or.inr (Or.inr h)

theorem mem_listed {index : Table NameSet} {above name : String}
    (h : isBelow index above name = true) : name ∈ (listed index).toNames := by
  obtain ⟨names, hget, hname⟩ := Option.any_eq_true _ _ |>.mp h
  rw [NameSet.mem_toNames, listed, contains_foldl_join]
  exact Or.inl ⟨(above, names), index.get?_eq_some_iff.mp hget, hname⟩

/-! ## Reaching downwards -/

/-- A chain of names, each listed below the one before it, that stays among the given names after its
start. -/
inductive ChainWithin (index : Table NameSet) (among : List String) (start : String) :
    String → Prop
  | single {name : String} : isBelow index start name = true → name ∈ among →
      ChainWithin index among start name
  | tail {middle name : String} : ChainWithin index among start middle →
      isBelow index middle name = true → name ∈ among → ChainWithin index among start name

section Reach

variable {index : Table NameSet} {current : String} {remaining pending : List String}

theorem mem_partitionBelow_fst {name : String} :
    name ∈ (partitionBelow index current remaining).1 ↔
      name ∈ remaining ∧ isBelow index current name = true := by
  simp [partitionBelow, List.partition_eq_filter_filter]

theorem mem_partitionBelow_snd {name : String} :
    name ∈ (partitionBelow index current remaining).2 ↔
      name ∈ remaining ∧ isBelow index current name = false := by
  simp [partitionBelow, List.partition_eq_filter_filter]

/-- One step of the search: the end of a chain is found now, or a chain among the names that are left
leads to it from what is pending then. -/
theorem ChainWithin.advance {start name : String} (h : ChainWithin index remaining start name)
    (hstart : start ∈ current :: pending) :
    name ∈ (partitionBelow index current remaining).1 ∨
      ∃ next ∈ (partitionBelow index current remaining).1 ++ pending,
        ChainWithin index (partitionBelow index current remaining).2 next name := by
  induction h with
  | @single name hbelow hmem =>
    cases hcurrent : isBelow index current name with
    | true => exact Or.inl (mem_partitionBelow_fst.mpr ⟨hmem, hcurrent⟩)
    | false =>
      have hleft := mem_partitionBelow_snd.mpr ⟨hmem, hcurrent⟩
      rcases List.mem_cons.mp hstart with rfl | hpending
      · rw [hbelow] at hcurrent
        cases hcurrent
      · exact Or.inr ⟨start, List.mem_append_right _ hpending, .single hbelow hleft⟩
  | @tail middle name _ hbelow hmem ih =>
    cases hcurrent : isBelow index current name with
    | true => exact Or.inl (mem_partitionBelow_fst.mpr ⟨hmem, hcurrent⟩)
    | false =>
      have hleft := mem_partitionBelow_snd.mpr ⟨hmem, hcurrent⟩
      rcases ih with hfound | ⟨next, hnext, hchain⟩
      · exact Or.inr ⟨middle, List.mem_append_left _ hfound, .single hbelow hleft⟩
      · exact Or.inr ⟨next, hnext, .tail hchain hbelow hleft⟩

theorem mem_reach_of_chain {start name : String} (h : ChainWithin index remaining start name)
    (hstart : start ∈ pending) : name ∈ reach index remaining pending := by
  induction remaining, pending using reach.induct index generalizing start with
  | case1 remaining => simp at hstart
  | case2 remaining current pending found =>
    rename_i ih
    rw [reach]
    rcases h.advance hstart with hfound | ⟨next, hnext, hchain⟩
    · exact List.mem_append_left _ hfound
    · exact List.mem_append_right _ (ih hchain hnext)

theorem exists_chain_of_mem_reach {name : String} (h : name ∈ reach index remaining pending) :
    ∃ start ∈ pending, Relation.TransGen (fun a b => isBelow index a b = true) start name := by
  induction remaining, pending using reach.induct index with
  | case1 remaining => simp [reach] at h
  | case2 remaining current pending found ih =>
    rw [reach] at h
    have hcurrent : ∀ x ∈ (partitionBelow index current remaining).1,
        Relation.TransGen (fun a b => isBelow index a b = true) current x :=
      fun x hx => .single (mem_partitionBelow_fst.mp hx).2
    rcases List.mem_append.mp h with hfound | hlater
    · exact ⟨current, by simp, hcurrent name hfound⟩
    · obtain ⟨next, hnext, hchain⟩ := ih hlater
      rcases List.mem_append.mp hnext with hfound | hpending
      · exact ⟨current, by simp, (hcurrent next hfound).trans hchain⟩
      · exact ⟨next, List.mem_cons_of_mem _ hpending, hchain⟩

end Reach

theorem chainWithin_listed {index : Table NameSet} {start name : String}
    (h : Relation.TransGen (fun a b => isBelow index a b = true) start name) :
    ChainWithin index (listed index).toNames start name := by
  induction h with
  | single hbelow => exact .single hbelow (mem_listed hbelow)
  | tail _ hbelow ih => exact .tail ih hbelow (mem_listed hbelow)

/-- The descendants of a class are the other classes below it, directly or not. -/
theorem mem_descendants (classes : List Class) (above name : String) :
    name ∈ (descendants (subclassIndex classes) above).toNames ↔
      name ≠ above ∧ Descends classes above name := by
  have hreach : name ∈ reach (subclassIndex classes) (listed (subclassIndex classes)).toNames
      [above] ↔ Descends classes above name := by
    rw [Descends, ← isBelow_subclassIndex_eq]
    constructor
    · intro h
      obtain ⟨start, hstart, hchain⟩ := exists_chain_of_mem_reach h
      obtain rfl := List.mem_singleton.mp hstart
      exact hchain
    · intro h
      exact mem_reach_of_chain (chainWithin_listed h) (by simp)
  rw [NameSet.mem_toNames, descendants, ← hreach, ← NameSet.contains_ofNames]
  by_cases hname : name = above <;> simp [Table.contains, hname]

end Classmith
