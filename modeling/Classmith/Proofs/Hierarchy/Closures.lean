import Classmith.Hierarchy.Query
import Classmith.Proofs.Tables
import Mathlib.Logic.Relation

/-!
# Closures of interfaces

What the search for the interfaces of a class finds, told without what the queries remember. It succeeds
if everything above the class is known and no cycle lies above it, and only then, and it finds what the
classes above list or are.
-/
namespace Classmith

/-- A walk that leaves out a name at every step: what holds for a list of names if it holds for the
list without any one of its names holds for every list. -/
theorem without_induction {P : List String → Prop}
    (step : ∀ remaining, (∀ name ∈ remaining, P (without name remaining)) → P remaining)
    (remaining : List String) : P remaining := by
  induction hn : remaining.length using Nat.strongRecOn generalizing remaining with
  | _ n ih => exact step remaining fun name hmem => ih _ (hn ▸ length_without_lt hmem) _ rfl

namespace ClassInfo

/-- The superclass and the interfaces that a class names. -/
def supertypes (info : ClassInfo) : List String := info.superName.toList ++ info.interfaces

theorem mem_supertypes {info : ClassInfo} {above : String} :
    above ∈ info.supertypes ↔ info.superName = some above ∨ above ∈ info.interfaces := by
  simp [supertypes]

section Closure

variable {m : Type → Type} [Monad m]

/-- Adds an interface that a class lists, and what this interface inherits. -/
def listInterface (inherit : String → m NameSet) (closure : NameSet) (above : String) : m NameSet := do
  let inherited ← inherit above
  return (closure.add above).join inherited

/-- The interfaces of a class, given those of each of its supertypes. -/
def closure (info : ClassInfo) (inherit : String → m NameSet) : m NameSet := do
  let own : NameSet := if info.isInterface then NameSet.ofNames [info.name] else Table.empty
  let declared ← info.interfaces.foldlM (listInterface inherit) own
  info.superName.elim (pure declared) fun above => do
    let inherited ← inherit above
    pure (declared.join inherited)

end Closure

/-- The class is the interface with the given name, or it lists that name. -/
def Shows (info : ClassInfo) (i : String) : Prop :=
  info.isInterface = true ∧ info.name = i ∨ i ∈ info.interfaces

section Except

variable {inherit : String → Except Error NameSet}

theorem foldlM_listInterface_ok {l : List String} {start s : NameSet}
    (h : l.foldlM (listInterface inherit) start = .ok s) :
    (∀ above ∈ l, ∃ t, inherit above = .ok t) ∧
      ∀ i, s.contains i = true ↔ start.contains i = true ∨ i ∈ l ∨
        ∃ above ∈ l, ∃ t, inherit above = .ok t ∧ t.contains i = true := by
  induction l generalizing start with
  | nil =>
    obtain rfl : start = s := Except.ok.inj h
    simp
  | cons head rest ih =>
    rw [List.foldlM_cons] at h
    cases hhead : inherit head with
    | error e =>
      rw [listInterface, hhead] at h
      cases h
    | ok t =>
      have hstep : listInterface inherit start head = .ok ((start.add head).join t) := by
        rw [listInterface, hhead]
        rfl
      rw [hstep] at h
      obtain ⟨hrest, hcontains⟩ := ih h
      refine ⟨?_, fun i => ?_⟩
      · intro above habove
        rcases List.mem_cons.mp habove with rfl | habove
        · exact ⟨t, hhead⟩
        · exact hrest above habove
      · rw [hcontains, NameSet.contains_join, NameSet.contains_add]
        constructor
        · rintro ((ht | hi | hi) | hi | ⟨above, habove, u, hu, hi⟩)
          · exact Or.inr (Or.inr ⟨head, by simp, t, hhead, ht⟩)
          · exact Or.inr (Or.inl (by simp [hi]))
          · exact Or.inl hi
          · exact Or.inr (Or.inl (by simp [hi]))
          · exact Or.inr (Or.inr ⟨above, by simp [habove], u, hu, hi⟩)
        · rintro (hi | hi | ⟨above, habove, u, hu, hi⟩)
          · exact Or.inl (Or.inr (Or.inr hi))
          · rcases List.mem_cons.mp hi with hi | hi
            · exact Or.inl (Or.inr (Or.inl hi))
            · exact Or.inr (Or.inl hi)
          · rcases List.mem_cons.mp habove with rfl | habove
            · rw [hhead] at hu
              cases hu
              exact Or.inl (Or.inl hi)
            · exact Or.inr (Or.inr ⟨above, habove, u, hu, hi⟩)

theorem exists_foldlM_listInterface {l : List String} (start : NameSet)
    (h : ∀ above ∈ l, ∃ t, inherit above = .ok t) :
    ∃ s, l.foldlM (listInterface inherit) start = .ok s := by
  induction l generalizing start with
  | nil => exact ⟨start, rfl⟩
  | cons head rest ih =>
    obtain ⟨t, ht⟩ := h head (by simp)
    obtain ⟨s, hs⟩ := ih ((start.add head).join t) fun above habove => h above (by simp [habove])
    refine ⟨s, ?_⟩
    rw [List.foldlM_cons, listInterface, ht]
    exact hs

theorem contains_own (info : ClassInfo) (i : String) :
    Table.contains (if info.isInterface then NameSet.ofNames [info.name] else Table.empty) i = true ↔
      info.isInterface = true ∧ info.name = i := by
  cases info.isInterface with
  | false => simp [Table.contains]
  | true =>
    rw [if_pos rfl, NameSet.contains_ofNames]
    simp [eq_comm]

/-- Putting a closure together needs the closure of every supertype, and gives what the class itself
shows with what it inherits. -/
theorem closure_ok {info : ClassInfo} {s : NameSet} (h : info.closure inherit = .ok s) :
    (∀ above ∈ info.supertypes, ∃ t, inherit above = .ok t) ∧
      ∀ i, s.contains i = true ↔ info.Shows i ∨
        ∃ above ∈ info.supertypes, ∃ t, inherit above = .ok t ∧ t.contains i = true := by
  rw [closure] at h
  cases hfold : info.interfaces.foldlM (listInterface inherit)
      (if info.isInterface then NameSet.ofNames [info.name] else Table.empty) with
  | error e =>
    rw [hfold] at h
    cases h
  | ok declared =>
    rw [hfold] at h
    obtain ⟨hlisted, hdeclared⟩ := foldlM_listInterface_ok hfold
    have hdeclared : ∀ i, declared.contains i = true ↔ info.Shows i ∨
        ∃ above ∈ info.interfaces, ∃ t, inherit above = .ok t ∧ t.contains i = true := by
      intro i
      rw [hdeclared, contains_own, Shows, or_assoc]
    cases hsuper : info.superName with
    | none =>
      have hsupertypes : info.supertypes = info.interfaces := by simp [supertypes, hsuper]
      rw [hsuper] at h
      obtain rfl : declared = s := Except.ok.inj h
      rw [hsupertypes]
      exact ⟨hlisted, hdeclared⟩
    | some top =>
      have hsupertypes : info.supertypes = top :: info.interfaces := by simp [supertypes, hsuper]
      rw [hsuper] at h
      cases htop : inherit top with
      | error e =>
        simp only [Option.elim_some, htop] at h
        cases h
      | ok t =>
        simp only [Option.elim_some, htop] at h
        obtain rfl : declared.join t = s := Except.ok.inj h
        rw [hsupertypes]
        refine ⟨?_, fun i => ?_⟩
        · intro above habove
          rcases List.mem_cons.mp habove with rfl | habove
          · exact ⟨t, htop⟩
          · exact hlisted above habove
        · rw [NameSet.contains_join, hdeclared]
          simp only [List.mem_cons, exists_eq_or_imp, htop, Except.ok.injEq, exists_eq_left']
          exact or_left_comm

theorem exists_closure {info : ClassInfo} (h : ∀ above ∈ info.supertypes, ∃ t, inherit above = .ok t) :
    ∃ s, info.closure inherit = .ok s := by
  obtain ⟨declared, hdeclared⟩ := exists_foldlM_listInterface
    (if info.isInterface then NameSet.ofNames [info.name] else Table.empty)
    fun above habove => h above (mem_supertypes.mpr (Or.inr habove))
  rw [closure, hdeclared]
  cases hsuper : info.superName with
  | none => exact ⟨declared, rfl⟩
  | some top =>
    obtain ⟨t, ht⟩ := h top (mem_supertypes.mpr (Or.inl hsuper))
    refine ⟨declared.join t, ?_⟩
    simp only [Option.elim_some, ht]
    rfl

end Except

end ClassInfo

namespace Hierarchy

/-- The class is known and names the other one as its superclass or as an interface. -/
def DirectlyBelow (h : Hierarchy) (name above : String) : Prop :=
  ∃ info, h.lookup? name = some info ∧ above ∈ info.supertypes

theorem directlyBelow_iff {h : Hierarchy} {name above : String} : h.DirectlyBelow name above ↔
    ((h.lookup? name).any fun info => info.supertypes.contains above) = true := by
  simp [DirectlyBelow, Option.any_eq_true]

instance (h : Hierarchy) (name above : String) : Decidable (h.DirectlyBelow name above) :=
  decidable_of_iff _ directlyBelow_iff.symm

/-- Superclasses and interfaces lead from the first name to the second in any number of steps. -/
def Below (h : Hierarchy) : String → String → Prop := Relation.ReflTransGen h.DirectlyBelow

/-- Everything above a class is known and nothing above it lies on a cycle. -/
structure Grounded (h : Hierarchy) (name : String) : Prop where
  known : ∀ above, h.Below name above → (h.lookup? above).isSome
  acyclic : ∀ above, h.Below name above → ¬Relation.TransGen h.DirectlyBelow above above

/-- A class at the name or above it is the interface or lists it. -/
def Implements (h : Hierarchy) (name i : String) : Prop :=
  ∃ above info, h.Below name above ∧ h.lookup? above = some info ∧ info.Shows i

theorem lookup?_root (h : Hierarchy) : h.lookup? ClassInfo.rootName = some .root := if_pos rfl

theorem mem_names_of_lookup? {h : Hierarchy} {name : String} (hname : (h.lookup? name).isSome) :
    name ∈ h.names := by
  unfold lookup? at hname
  unfold names
  split at hname
  · simp [*]
  · rw [Option.isSome_or, Bool.or_eq_true] at hname
    rcases hname with hpool | hloader
    · have hkey : name ∈ h.pool.index.keys := (Loader.ofPool h.pool).mem_domain name hpool
      simp [hkey]
    · simp [h.loader.mem_domain name hloader]

section Below

variable {h : Hierarchy} {name : String} {info : ClassInfo}

theorem below_iff (hname : h.lookup? name = some info) {above : String} :
    h.Below name above ↔ above = name ∨ ∃ next ∈ info.supertypes, h.Below next above := by
  rw [Below, Relation.ReflTransGen.cases_head_iff, eq_comm]
  refine or_congr_right ⟨?_, ?_⟩
  · rintro ⟨next, ⟨info', hinfo', hnext⟩, hbelow⟩
    rw [hname] at hinfo'
    cases hinfo'
    exact ⟨next, hnext, hbelow⟩
  · rintro ⟨next, hnext, hbelow⟩
    exact ⟨next, ⟨info, hname, hnext⟩, hbelow⟩

theorem implements_iff (hname : h.lookup? name = some info) {i : String} :
    h.Implements name i ↔ info.Shows i ∨ ∃ next ∈ info.supertypes, h.Implements next i := by
  constructor
  · rintro ⟨above, info', hbelow, hinfo', hshows⟩
    rcases (below_iff hname).mp hbelow with rfl | ⟨next, hnext, hbelow⟩
    · rw [hname] at hinfo'
      cases hinfo'
      exact Or.inl hshows
    · exact Or.inr ⟨next, hnext, above, info', hbelow, hinfo', hshows⟩
  · rintro (hshows | ⟨next, hnext, above, info', hbelow, hinfo', hshows⟩)
    · exact ⟨name, info, .refl, hname, hshows⟩
    · exact ⟨above, info', (below_iff hname).mpr (Or.inr ⟨next, hnext, hbelow⟩), hinfo', hshows⟩

theorem Grounded.of_below (hground : h.Grounded name) {above : String} (habove : h.Below name above) :
    h.Grounded above where
  known _ hbelow := hground.known _ (habove.trans hbelow)
  acyclic _ hbelow := hground.acyclic _ (habove.trans hbelow)

/-- A grounded class is not met again above its supertypes. -/
theorem Grounded.not_below (hground : h.Grounded name) {next : String}
    (hnext : h.DirectlyBelow name next) : ¬h.Below next name := fun hback =>
  hground.acyclic name .refl (Relation.TransGen.head' hnext hback)

end Below

end Hierarchy

/-! ## The search -/

namespace Plain

/-- The supertypes of a class, found without remembering anything. -/
def resolve (h : Hierarchy) (name : String) : Except Error ClassInfo :=
  (h.lookup? name).elim (.error (.unresolved name)) .ok

/-- The interfaces of a class, found without remembering anything. -/
def collect (h : Hierarchy) (remaining : List String) (name : String) : Except Error NameSet := do
  let info ← resolve h name
  if _hmem : name ∈ remaining then info.closure (collect h (without name remaining))
  else throw (.cyclic name)
termination_by remaining.length
decreasing_by exact length_without_lt _hmem

variable {h : Hierarchy} {name : String} {info : ClassInfo} {remaining : List String}

theorem resolve_eq_ok : resolve h name = .ok info ↔ h.lookup? name = some info := by
  cases hname : h.lookup? name <;> simp [resolve, hname]

theorem resolve_of_unknown (hname : h.lookup? name = none) :
    resolve h name = .error (.unresolved name) := by
  rw [resolve, hname]
  rfl

theorem collect_of_mem (hname : h.lookup? name = some info) (hmem : name ∈ remaining) :
    collect h remaining name = info.closure (collect h (without name remaining)) := by
  rw [collect, resolve_eq_ok.mpr hname]
  exact dif_pos hmem

theorem collect_of_notMem (hname : h.lookup? name = some info) (hmem : name ∉ remaining) :
    collect h remaining name = .error (.cyclic name) := by
  rw [collect, resolve_eq_ok.mpr hname]
  exact dif_neg hmem

theorem collect_of_unknown (hname : h.lookup? name = none) :
    collect h remaining name = .error (.unresolved name) := by
  rw [collect, resolve_of_unknown hname]
  rfl

/-- A successful search has known the class and was free to visit it. -/
theorem of_collect_ok {s : NameSet} (hs : collect h remaining name = .ok s) :
    ∃ info, h.lookup? name = some info ∧ name ∈ remaining ∧
      info.closure (collect h (without name remaining)) = .ok s := by
  cases hname : h.lookup? name with
  | none =>
    rw [collect_of_unknown hname] at hs
    cases hs
  | some info =>
    by_cases hmem : name ∈ remaining
    · rw [collect_of_mem hname hmem] at hs
      exact ⟨info, rfl, hmem, hs⟩
    · rw [collect_of_notMem hname hmem] at hs
      cases hs

/-- What is above a class whose search succeeds could all be visited, and nothing twice. -/
theorem collect_ok {s : NameSet} (hs : collect h remaining name = .ok s) :
    (∀ above, h.Below name above → above ∈ remaining) ∧ h.Grounded name ∧
      ∀ i, s.contains i = true ↔ h.Implements name i := by
  induction remaining using without_induction generalizing name s with
  | step remaining ih =>
    obtain ⟨info, hname, hmem, hclosure⟩ := of_collect_ok hs
    obtain ⟨hall, hcontains⟩ := ClassInfo.closure_ok hclosure
    have hnext : ∀ {next t}, collect h (without name remaining) next = .ok t →
        (∀ above, h.Below next above → above ∈ without name remaining) ∧ h.Grounded next ∧
          ∀ i, t.contains i = true ↔ h.Implements next i :=
      fun ht => ih name hmem ht
    refine ⟨?_, ⟨?_, ?_⟩, ?_⟩
    · intro above habove
      rcases (Hierarchy.below_iff hname).mp habove with rfl | ⟨next, hsuper, hbelow⟩
      · exact hmem
      · obtain ⟨t, ht⟩ := hall next hsuper
        exact (mem_without.mp ((hnext ht).1 above hbelow)).1
    · intro above habove
      rcases (Hierarchy.below_iff hname).mp habove with rfl | ⟨next, hsuper, hbelow⟩
      · simp [hname]
      · obtain ⟨t, ht⟩ := hall next hsuper
        exact (hnext ht).2.1.known above hbelow
    · intro above habove hcycle
      rcases (Hierarchy.below_iff hname).mp habove with rfl | ⟨next, hsuper, hbelow⟩
      · -- a cycle through the class leads back to it from a supertype, which could not visit it
        obtain ⟨next, ⟨info', hinfo', hsuper⟩, hback⟩ := Relation.TransGen.head'_iff.mp hcycle
        rw [hname] at hinfo'
        cases hinfo'
        obtain ⟨t, ht⟩ := hall next hsuper
        exact (mem_without.mp ((hnext ht).1 above hback)).2 rfl
      · obtain ⟨t, ht⟩ := hall next hsuper
        exact (hnext ht).2.1.acyclic above hbelow hcycle
    · intro i
      rw [hcontains, Hierarchy.implements_iff hname]
      refine or_congr_right ⟨?_, ?_⟩
      · rintro ⟨next, hsuper, t, ht, hi⟩
        exact ⟨next, hsuper, ((hnext ht).2.2 i).mp hi⟩
      · rintro ⟨next, hsuper, hi⟩
        obtain ⟨t, ht⟩ := hall next hsuper
        exact ⟨next, hsuper, t, ht, ((hnext ht).2.2 i).mpr hi⟩

/-- The search from a grounded class succeeds if it may visit everything above. -/
theorem exists_collect (hground : h.Grounded name)
    (hall : ∀ above, h.Below name above → above ∈ remaining) :
    ∃ s, collect h remaining name = .ok s := by
  induction remaining using without_induction generalizing name with
  | step remaining ih =>
    have hmem : name ∈ remaining := hall name .refl
    obtain ⟨info, hname⟩ := Option.isSome_iff_exists.mp (hground.known name .refl)
    rw [collect_of_mem hname hmem]
    apply ClassInfo.exists_closure
    intro next hsuper
    have hstep : h.DirectlyBelow name next := ⟨info, hname, hsuper⟩
    refine ih name hmem (hground.of_below (.single hstep)) ?_
    intro above habove
    refine mem_without.mpr ⟨hall above (.head hstep habove), ?_⟩
    rintro rfl
    exact hground.not_below hstep habove

end Plain

end Classmith
