import Classmith.Proofs.Signature.Renaming
import Mathlib.Data.List.Forall2

/-!
# Renaming as substitution

The grammar of signatures by its derivations, and substitution on derivations as a relation: what
becomes of every name is said by the table alone, without reading a text. Renaming the classes of a text
is this substitution wherever the text has a derivation, and nothing anywhere else.
-/
namespace Classmith.Signature

/-- The tree is a derivation of the text in the grammar of signatures. -/
structure Derives (t : Tree) (s : String) : Prop where
  wellFormed : t.WellFormed
  spelling : t.print = s.toList

theorem parse?_eq_some_iff {t : Tree} {s : String} : parse? s.toList = some t ↔ Derives t s := by
  constructor
  · intro h
    obtain ⟨hprint, hwell⟩ := parse?_eq_some h
    exact ⟨hwell, hprint⟩
  · intro h
    rw [← h.spelling]
    exact parse?_print h.wellFormed

theorem parse?_eq_none_iff {s : String} : parse? s.toList = none ↔ ∀ t, ¬Derives t s := by
  simp only [Option.eq_none_iff_forall_ne_some, ne_eq, parse?_eq_some_iff]

theorem Derives.unique {t u : Tree} {s : String} (ht : Derives t s) (hu : Derives u s) : u = t := by
  have hread := parse?_eq_some_iff.mpr hu
  rw [parse?_eq_some_iff.mpr ht] at hread
  exact (Option.some.inj hread).symm

/-! ## Substitution -/

/-- The name that a table assigns to another, or what stands in for a missing entry. -/
inductive Assigned (classes : ClassTable) (name other : String) : String → Prop
  | listed {new : String} : classes.get? name = some new → Assigned classes name other new
  | missing : classes.get? name = none → Assigned classes name other other

/-- The simple name of a member class: what its binary name has after the name of the outer class and
`$`, or the old simple name if it has no such part. -/
inductive Shown (outer binary old : String) : String → Prop
  | inside {name : String} : binary = outer ++ "$" ++ name → Shown outer binary old name
  | outside : (∀ name, binary ≠ outer ++ "$" ++ name) → Shown outer binary old old

mutual

/-- The second type is the first one with its names replaced by those of the table. -/
inductive TypeSig.Substitutes (classes : ClassTable) : TypeSig → TypeSig → Prop
  | base (letter : Char) : TypeSig.Substitutes classes (.base letter) (.base letter)
  | typeVar (name : String) : TypeSig.Substitutes classes (.typeVar name) (.typeVar name)
  | array {t t' : TypeSig} : t.Substitutes classes t' →
      TypeSig.Substitutes classes (.array t) (.array t')
  | object {name new : String} {a a' : Arguments} {m m' : Members} : Assigned classes name name new →
      a.Substitutes classes a' → m.Substitutes classes name new m' →
      TypeSig.Substitutes classes (.object name a m) (.object new a' m')

inductive Arguments.Substitutes (classes : ClassTable) : Arguments → Arguments → Prop
  | absent : Arguments.Substitutes classes .absent .absent
  | given {l l' : ArgumentList} : l.Substitutes classes l' →
      Arguments.Substitutes classes (.given l) (.given l')

inductive ArgumentList.Substitutes (classes : ClassTable) : ArgumentList → ArgumentList → Prop
  | nil : ArgumentList.Substitutes classes .nil .nil
  | any {l l' : ArgumentList} : l.Substitutes classes l' →
      ArgumentList.Substitutes classes (.any l) (.any l')
  | type (bound : Option Char) {t t' : TypeSig} {l l' : ArgumentList} : t.Substitutes classes t' →
      l.Substitutes classes l' →
      ArgumentList.Substitutes classes (.type bound t l) (.type bound t' l')

/-- Member classes of an outer class with the given binary names before and after: a member is looked up
by its old binary name and otherwise stays inside its outer class. -/
inductive Members.Substitutes (classes : ClassTable) : String → String → Members → Members → Prop
  | nil (oldOuter newOuter : String) : Members.Substitutes classes oldOuter newOuter .nil .nil
  | cons {oldOuter newOuter name binary shown : String} {a a' : Arguments} {m m' : Members} :
      Assigned classes (oldOuter ++ "$" ++ name) (newOuter ++ "$" ++ name) binary →
      Shown newOuter binary name shown → a.Substitutes classes a' →
      m.Substitutes classes (oldOuter ++ "$" ++ name) binary m' →
      Members.Substitutes classes oldOuter newOuter (.cons name a m) (.cons shown a' m')

end

structure Formal.Substitutes (classes : ClassTable) (f f' : Formal) : Prop where
  name : f'.name = f.name
  classBound : Option.Rel (TypeSig.Substitutes classes) f.classBound f'.classBound
  interfaceBounds : List.Forall₂ (TypeSig.Substitutes classes) f.interfaceBounds f'.interfaceBounds

inductive Item.Substitutes (classes : ClassTable) : Item → Item → Prop
  | mark (c : Char) : Item.Substitutes classes (.mark c) (.mark c)
  | type {t t' : TypeSig} : t.Substitutes classes t' → Item.Substitutes classes (.type t) (.type t')

/-- The second tree is the first one with its names replaced by those of the table. -/
structure Tree.Substitutes (classes : ClassTable) (t t' : Tree) : Prop where
  formals : Option.Rel (List.Forall₂ (Formal.Substitutes classes)) t.formals t'.formals
  items : List.Forall₂ (Item.Substitutes classes) t.items t'.items

/-! ## Renaming substitutes -/

theorem assigned_iff {classes : ClassTable} {name other new : String} :
    Assigned classes name other new ↔ new = (classes.get? name).getD other := by
  constructor
  · rintro (h | h) <;> simp [h]
  · rintro rfl
    cases h : classes.get? name with
    | none => exact .missing h
    | some new => exact .listed h

theorem memberName?_eq_some_iff {outer binary name : String} :
    memberName? outer binary = some name ↔ binary = outer ++ "$" ++ name := by
  constructor
  · intro h
    unfold memberName? at h
    split at h
    · rename_i rest hdrop
      obtain rfl := Option.some.inj h
      apply String.toList_injective
      simp [Text.dropHead?_eq_some hdrop]
    · cases h
  · rintro rfl
    exact memberName?_nested outer name

theorem shown_iff {outer binary old shown : String} :
    Shown outer binary old shown ↔ shown = (memberName? outer binary).getD old := by
  constructor
  · rintro (h | h)
    · simp [memberName?_eq_some_iff.mpr h]
    · have hnone : memberName? outer binary = none := by
        rw [Option.eq_none_iff_forall_ne_some]
        intro name hname
        exact h name (memberName?_eq_some_iff.mp hname)
      simp [hnone]
  · rintro rfl
    cases h : memberName? outer binary with
    | some name => exact .inside (memberName?_eq_some_iff.mp h)
    | none =>
      refine .outside fun name hname => ?_
      rw [memberName?_eq_some_iff.mpr hname] at h
      cases h

section

variable (classes : ClassTable)

mutual

theorem TypeSig.substitutes_iff (t : TypeSig) {t' : TypeSig} :
    t.Substitutes classes t' ↔ t' = t.rename classes := by
  match t with
  | .base letter =>
    constructor
    · rintro ⟨⟩
      rfl
    · rintro rfl
      exact .base letter
  | .typeVar name =>
    constructor
    · rintro ⟨⟩
      rfl
    · rintro rfl
      exact .typeVar name
  | .array element =>
    constructor
    · rintro (_ | _ | h)
      rw [TypeSig.rename, (TypeSig.substitutes_iff element).mp h]
    · rintro rfl
      exact .array ((TypeSig.substitutes_iff element).mpr rfl)
  | .object name a m =>
    constructor
    · rintro (_ | _ | _ | ⟨hname, ha, hm⟩)
      obtain rfl := assigned_iff.mp hname
      rw [TypeSig.rename, (Arguments.substitutes_iff a).mp ha,
        (Members.substitutes_iff name _ m).mp hm]
    · rintro rfl
      exact .object (assigned_iff.mpr rfl) ((Arguments.substitutes_iff a).mpr rfl)
        ((Members.substitutes_iff name _ m).mpr rfl)
termination_by structural t

theorem Arguments.substitutes_iff (a : Arguments) {a' : Arguments} :
    a.Substitutes classes a' ↔ a' = a.rename classes := by
  match a with
  | .absent =>
    constructor
    · rintro ⟨⟩
      rfl
    · rintro rfl
      exact .absent
  | .given l =>
    constructor
    · rintro (_ | h)
      rw [Arguments.rename, (ArgumentList.substitutes_iff l).mp h]
    · rintro rfl
      exact .given ((ArgumentList.substitutes_iff l).mpr rfl)
termination_by structural a

theorem ArgumentList.substitutes_iff (l : ArgumentList) {l' : ArgumentList} :
    l.Substitutes classes l' ↔ l' = l.rename classes := by
  match l with
  | .nil =>
    constructor
    · rintro ⟨⟩
      rfl
    · rintro rfl
      exact .nil
  | .any rest =>
    constructor
    · rintro (_ | h)
      rw [ArgumentList.rename, (ArgumentList.substitutes_iff rest).mp h]
    · rintro rfl
      exact .any ((ArgumentList.substitutes_iff rest).mpr rfl)
  | .type bound t rest =>
    constructor
    · rintro (_ | _ | ⟨_, ht, hrest⟩)
      rw [ArgumentList.rename, (TypeSig.substitutes_iff t).mp ht,
        (ArgumentList.substitutes_iff rest).mp hrest]
    · rintro rfl
      exact .type bound ((TypeSig.substitutes_iff t).mpr rfl)
        ((ArgumentList.substitutes_iff rest).mpr rfl)
termination_by structural l

theorem Members.substitutes_iff (oldOuter newOuter : String) (m : Members) {m' : Members} :
    m.Substitutes classes oldOuter newOuter m' ↔ m' = m.rename classes oldOuter newOuter := by
  match m with
  | .nil =>
    constructor
    · rintro ⟨⟩
      rfl
    · rintro rfl
      exact .nil oldOuter newOuter
  | .cons name a rest =>
    constructor
    · rintro (_ | ⟨hbinary, hshown, ha, hrest⟩)
      obtain rfl := assigned_iff.mp hbinary
      obtain rfl := shown_iff.mp hshown
      rw [Members.rename, (Arguments.substitutes_iff a).mp ha,
        (Members.substitutes_iff _ _ rest).mp hrest]
      rfl
    · rintro rfl
      exact .cons (assigned_iff.mpr rfl) (shown_iff.mpr rfl) ((Arguments.substitutes_iff a).mpr rfl)
        ((Members.substitutes_iff _ _ rest).mpr rfl)
termination_by structural m

end

theorem forall₂_iff_eq_map {α β : Type} {related : α → β → Prop} {f : α → β}
    (h : ∀ a b, related a b ↔ b = f a) {l : List α} {l' : List β} :
    List.Forall₂ related l l' ↔ l' = l.map f := by
  induction l generalizing l' with
  | nil => simp
  | cons a rest ih => simp [List.forall₂_cons_left_iff, h, ih]

theorem optionRel_iff_eq_map {α β : Type} {related : α → β → Prop} {f : α → β}
    (h : ∀ a b, related a b ↔ b = f a) {o : Option α} {o' : Option β} :
    Option.Rel related o o' ↔ o' = o.map f := by
  cases o <;> cases o' <;> simp [h]

theorem Formal.substitutes_iff (f f' : Formal) :
    f.Substitutes classes f' ↔ f' = f.rename classes := by
  have hbound : ∀ t t', TypeSig.Substitutes classes t t' ↔ t' = t.rename classes :=
    fun t _ => TypeSig.substitutes_iff classes t
  constructor
  · intro h
    have hclass := (optionRel_iff_eq_map hbound).mp h.classBound
    have hinterfaces := (forall₂_iff_eq_map hbound).mp h.interfaceBounds
    rw [Formal.rename, ← h.name, ← hclass, ← hinterfaces]
  · rintro rfl
    exact ⟨rfl, (optionRel_iff_eq_map hbound).mpr rfl, (forall₂_iff_eq_map hbound).mpr rfl⟩

theorem Item.substitutes_iff (item item' : Item) :
    item.Substitutes classes item' ↔ item' = item.rename classes := by
  cases item with
  | mark c =>
    constructor
    · rintro ⟨⟩
      rfl
    · rintro rfl
      exact .mark c
  | type t =>
    constructor
    · rintro (_ | h)
      rw [Item.rename, (TypeSig.substitutes_iff classes t).mp h]
    · rintro rfl
      exact .type ((TypeSig.substitutes_iff classes t).mpr rfl)

theorem Tree.substitutes_iff (t t' : Tree) : t.Substitutes classes t' ↔ t' = t.rename classes := by
  have hformals : ∀ l l', List.Forall₂ (Formal.Substitutes classes) l l' ↔
      l' = l.map (Formal.rename classes) :=
    fun l l' => forall₂_iff_eq_map (Formal.substitutes_iff classes)
  rw [Tree.rename_eq]
  constructor
  · intro h
    rw [← (optionRel_iff_eq_map hformals).mp h.formals,
      ← (forall₂_iff_eq_map (Item.substitutes_iff classes)).mp h.items]
  · rintro rfl
    exact ⟨(optionRel_iff_eq_map hformals).mpr rfl,
      (forall₂_iff_eq_map (Item.substitutes_iff classes)).mpr rfl⟩

end

/-- Renaming the classes of a text is substitution in the grammar of signatures. A text without a
derivation is left as it is; any other has exactly one, and the text after renaming spells the one tree
that the table makes of it. -/
theorem renameClasses_substitutes (classes : ClassTable) (s : String) :
    ((∀ t, ¬Derives t s) → (renameClasses classes s).text = s) ∧
    ∀ t, Derives t s → (∀ u, Derives u s → u = t) ∧
      ∃ t', t.Substitutes classes t' ∧ (∀ u, t.Substitutes classes u → u = t') ∧
        (renameClasses classes s).text = String.ofList t'.print := by
  constructor
  · intro hnone
    simp [text_renameClasses, parse?_eq_none_iff.mpr hnone]
  · intro t ht
    refine ⟨fun u hu => ht.unique hu, t.rename classes, (t.substitutes_iff classes _).mpr rfl,
      fun u hu => (t.substitutes_iff classes u).mp hu, ?_⟩
    simp [text_renameClasses, parse?_eq_some_iff.mpr ht]

namespace Samples

/-- The derivation of a signature with a formal parameter and a member class two levels deep. -/
def chain : Tree where
  formals := some [⟨"K", none, [.object "a/Key" .absent .nil]⟩]
  items := [.mark '(',
    .type (.object "a/Map" (.given (.type (some '+') (.typeVar "K") (.any .nil)))
      (.cons "Node" .absent (.cons "Leaf" (.given (.type none (.array (.base 'J')) .nil)) .nil))),
    .mark ')', .type (.base 'V'), .mark '^', .type (.object "a/Fault" .absent .nil)]

def chainText : String := "<K::La/Key;>(La/Map<+TK;*>.Node.Leaf<[J>;)V^La/Fault;"

/-- Moves the outer class and gives a member class another simple name. -/
def chainNames : ClassTable :=
  (Table.empty.insert "a/Map" "b/Dict").insert "a/Map$Node" "b/Dict$Item"

theorem derives_chain : Derives chain chainText :=
  parse?_eq_some_iff.mp (by rfl)

theorem not_derives_unclosed (t : Tree) : ¬Derives t "La/Map" := by
  intro h
  have hread := parse?_eq_some_iff.mpr h
  have hnone : (parse? "La/Map".toList).isNone = true := by decide +kernel
  rw [hread] at hnone
  cases hnone

end Samples

theorem renameClasses_substitutes_chain :
    (∀ u, Derives u Samples.chainText → u = Samples.chain) ∧
    (∃ t', Samples.chain.Substitutes Samples.chainNames t' ∧
      (renameClasses Samples.chainNames Samples.chainText).text = String.ofList t'.print) ∧
    (renameClasses Samples.chainNames Samples.chainText).text =
      "<K::La/Key;>(Lb/Dict<+TK;*>.Item.Leaf<[J>;)V^La/Fault;" ∧
    (renameClasses Samples.chainNames "La/Map").text = "La/Map" := by
  obtain ⟨hunique, t', hsubstitutes, -, htext⟩ :=
    (renameClasses_substitutes Samples.chainNames Samples.chainText).2 _ Samples.derives_chain
  exact ⟨hunique, ⟨t', hsubstitutes, htext⟩, by decide +kernel,
    (renameClasses_substitutes Samples.chainNames "La/Map").1 Samples.not_derives_unclosed⟩

end Classmith.Signature
