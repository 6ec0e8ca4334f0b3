import Classmith.Proofs.Rename.Propagation

/-!
# Renames seen from below

The table of inherited renames is filled from the classes that declare the fields. Here it is read from the
class that a field is looked up through: its new name is the one it has itself, or else that of the last
registered class above it which lets it see the field.
-/
namespace Classmith

open Remapper (Operation run)

/-- Following the names of superclasses through registered classes leads from one class to another. -/
def Climbs (classes : List Class) : Class → Class → Prop :=
  Relation.TransGen fun c above => above ∈ classes ∧ c.superName = some above.name

theorem Climbs.mem {classes : List Class} {c above : Class} (h : Climbs classes c above) :
    above ∈ classes := by
  cases h with
  | single hstep => exact hstep.1
  | tail _ hstep => exact hstep.1

theorem Climbs.descends {classes : List Class} {c above : Class} (hc : c ∈ classes)
    (h : Climbs classes c above) : Descends classes above.name c.name := by
  induction h with
  | single hstep => exact .single ⟨c, hc, hstep.2, rfl⟩
  | @tail middle top hchain hstep ih =>
    have hmiddle : ExtendsDirectly classes top.name middle.name :=
      ⟨middle, Climbs.mem hchain, hstep.2, rfl⟩
    exact .head hmiddle ih

/-- The classes below a registered class are those from which one climbs to it. -/
theorem descends_iff_climbs {classes : List Class} {above : Class} (habove : above ∈ classes)
    {name : String} :
    Descends classes above.name name ↔ ∃ c ∈ classes, c.name = name ∧ Climbs classes c above := by
  constructor
  · intro h
    induction h with
    | single hstep =>
      obtain ⟨c, hc, hsuper, hname⟩ := hstep
      exact ⟨c, hc, hname, .single ⟨habove, hsuper⟩⟩
    | tail _ hstep ih =>
      obtain ⟨middle, hmiddle, rfl, hclimbs⟩ := ih
      obtain ⟨c, hc, hsuper, hname⟩ := hstep
      exact ⟨c, hc, hname, .head ⟨hmiddle, hsuper⟩ hclimbs⟩
  · rintro ⟨c, hc, rfl, hclimbs⟩
    exact hclimbs.descends hc

/-- A registered class passes the new name of one of its fields down to another class: that class is
registered, the class is above it, and the field can be seen from there. -/
structure PassesDown (r : Remapper) (o d n : String) (c : Class) : Prop where
  other : c.name ≠ o
  above : ∃ child ∈ r.targets.classes, child.name = o ∧ Climbs r.targets.classes child c
  renamed : (r.fields.get? c.name d n).isSome
  declares : ∃ f ∈ c.fields, f.descriptor = d ∧ f.name = n ∧ Access.isPrivate f.access = false ∧
    (Access.isPublic f.access = true ∨ Access.isProtected f.access = true ∨
      Name.package c.name = Name.package o)

theorem Field.visibleFrom_iff (f : Field) (owner child : String) :
    f.visibleFrom owner child = true ↔ Access.isPrivate f.access = false ∧
      (Access.isPublic f.access = true ∨ Access.isProtected f.access = true ∨
        Name.package owner = Name.package child) := by
  simp only [Field.visibleFrom, Bool.and_eq_true, Bool.not_eq_true', Bool.or_eq_true, decide_eq_true_eq,
    or_assoc, eq_comm (a := Name.package child)]

theorem passesDown_iff {r : Remapper} {o d n : String} {c : Class} (hc : c ∈ r.targets.classes) :
    PassesDown r o d n c ↔ ∃ new f, Inherits r.targets.classes r.fields o d n new c f := by
  constructor
  · rintro ⟨hother, habove, hrenamed, f, hf, hdescriptor, hname, hvisible⟩
    obtain ⟨new, hnew⟩ := Option.isSome_iff_exists.mp hrenamed
    exact ⟨new, f, {
      declares := hc
      field := hf
      descriptor := hdescriptor
      name := hname
      renamed := hnew
      other := hother.symm
      below := (descends_iff_climbs hc).mpr habove
      visible := (f.visibleFrom_iff c.name o).mpr hvisible }⟩
  · rintro ⟨new, f, h⟩
    exact {
      other := h.other.symm
      above := (descends_iff_climbs hc).mp h.below
      renamed := by rw [h.renamed]; rfl
      declares := ⟨f, h.field, h.descriptor, h.name, (f.visibleFrom_iff c.name o).mp h.visible⟩ }

theorem exists_last {α : Type} {p : α → Prop} {l : List α} (h : ∃ a ∈ l, p a) :
    ∃ front a back, l = front ++ a :: back ∧ p a ∧ ∀ later ∈ back, ¬p later := by
  induction l with
  | nil => simp at h
  | cons head rest ih =>
    by_cases hrest : ∃ a ∈ rest, p a
    · obtain ⟨front, a, back, rfl, ha, hlater⟩ := ih hrest
      exact ⟨head :: front, a, back, rfl, ha, hlater⟩
    · have hhead : p head := by
        obtain ⟨a, hmem, ha⟩ := h
        rcases List.mem_cons.mp hmem with rfl | hmem
        · exact ha
        · exact absurd ⟨a, hmem, ha⟩ hrest
      exact ⟨[], head, rest, rfl, hhead, fun later hlater hp => hrest ⟨later, hlater, hp⟩⟩

/-- Whatever was done to a remapper, a field that has been renamed in a class itself has that name there.
Any other field has a new name through a class if and only if a registered class passes one down to it, and
the last one registered decides which. -/
theorem inherited_names_are_visible (operations : List Operation) (o d n : String) :
    (∀ new, (run operations).fields.get? o d n = some new →
      ((run operations).fieldName? o d n).1 = some new) ∧
    ((run operations).fields.get? o d n = none →
      (((run operations).fieldName? o d n).1.isSome ↔
        ∃ c ∈ (run operations).targets.classes, PassesDown (run operations) o d n c) ∧
      ∀ new, ((run operations).fieldName? o d n).1 = some new →
        ∃ front c back, (run operations).targets.classes = front ++ c :: back ∧
          PassesDown (run operations) o d n c ∧
          (∀ later ∈ back, ¬PassesDown (run operations) o d n later) ∧
          (run operations).fields.get? c.name d n = some new) := by
  rw [(Remapper.current_run operations).fieldName?]
  generalize run operations = r
  refine ⟨fun new => get?_inheritedFields_of_own, fun hown => ⟨?_, ?_⟩⟩
  · rw [isSome_get?_inheritedFields_iff, hown]
    constructor
    · rintro (hnone | ⟨new, c, f, h⟩)
      · cases hnone
      · exact ⟨c, h.declares, (passesDown_iff h.declares).mpr ⟨new, f, h⟩⟩
    · rintro ⟨c, hc, hpasses⟩
      obtain ⟨new, f, h⟩ := (passesDown_iff hc).mp hpasses
      exact .inr ⟨new, c, f, h⟩
  · intro new hget
    have hpasses : ∃ c ∈ r.targets.classes, PassesDown r o d n c := by
      rcases own_or_inherits_of_get? hget with hsome | ⟨c, f, h⟩
      · rw [hown] at hsome
        cases hsome
      · exact ⟨c, h.declares, (passesDown_iff h.declares).mpr ⟨new, f, h⟩⟩
    obtain ⟨front, c, back, hsplit, hc, hlater⟩ := exists_last hpasses
    refine ⟨front, c, back, hsplit, hc, hlater, ?_⟩
    have hmem : ∀ later ∈ c :: back, later ∈ r.targets.classes := by
      intro later hin
      rw [hsplit]
      exact List.mem_append_right front hin
    obtain ⟨last, f, h⟩ := (passesDown_iff (hmem c (by simp))).mp hc
    have hnone : ∀ later ∈ back, ∀ other g,
        ¬Inherits r.targets.classes r.fields o d n other later g := by
      intro later hin other g hg
      have hclass := hmem later (List.mem_cons_of_mem c hin)
      exact hlater later hin ((passesDown_iff hclass).mpr ⟨other, g, hg⟩)
    rw [hsplit] at h hnone hget
    rw [get?_inheritedFields_of_no_later hown h hnone] at hget
    rw [h.renamed, hget]

end Classmith
