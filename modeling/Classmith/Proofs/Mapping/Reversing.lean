import Classmith.Proofs.Mapping.RoundTrip

/-!
# Reversing twice

A reversed set has its owners and descriptors in the new names, so each of their names has to find its way
back through the classes of the reversed set. It does if it is not mistaken for a name that another class
was given; classes may exchange their names or hand them on.
-/
namespace Classmith.MappingSet

open MemberTable (Entry)
open Signature (IsName newName textNames)

variable {m : MappingSet}

def memberRenames (m : MappingSet) : List Entry := m.fieldRenames ++ m.methodRenames

/-- The names of a mapping set are such that none is lost when the set is reversed. -/
structure Invertible (m : MappingSet) : Prop where
  oldNames : (m.classRenames.map (·.1)).Nodup
  newNames : (m.classRenames.map (·.2)).Nodup
  areNames : ∀ e ∈ m.classRenames, IsName e.2
  notArrays : ∀ e ∈ m.classRenames, Descriptor.isArray e.2 = false
  descriptors : ∀ e ∈ m.memberRenames, '.' ∉ e.descriptor.toList
  arrayOwners : ∀ e ∈ m.memberRenames, Descriptor.isArray e.owner = true → '.' ∉ e.owner.toList
  /-- A class that a member rename names has given its name away if another class takes it. -/
  handedOn : ∀ e ∈ m.memberRenames, ∀ name ∈ refNames e.owner ++ textNames e.descriptor,
    name ∈ m.classRenames.map (·.2) → name ∈ m.classRenames.map (·.1)

theorem get?_classTable_eq_none (h : (m.classRenames.map (·.1)).Nodup) {name : String} :
    m.classTable.get? name = none ↔ name ∉ m.classRenames.map (·.1) := by
  constructor
  · intro hnone hmem
    obtain ⟨⟨old, new⟩, hrename, rfl⟩ := List.mem_map.mp hmem
    have hsome := (get?_classTable h).mpr hrename
    rw [hnone] at hsome
    cases hsome
  · intro hnot
    cases hget : m.classTable.get? name with
    | none => rfl
    | some new => exact absurd (List.mem_map.mpr ⟨_, (get?_classTable h).mp hget, rfl⟩) hnot

/-- A name comes back unless it is the new name of a class and no old one. -/
theorem newName_newName (hold : (m.classRenames.map (·.1)).Nodup)
    (hnew : (m.classRenames.map (·.2)).Nodup) {name : String}
    (hname : name ∈ m.classRenames.map (·.2) → name ∈ m.classRenames.map (·.1)) :
    newName m.reversed.classTable (newName m.classTable name) = name := by
  cases hget : m.classTable.get? name with
  | some new =>
    have hrename := (get?_classTable hold).mp hget
    have hback := (get?_classTable_reversed hnew).mpr hrename
    simp only [newName, hget, Option.getD_some, hback]
  | none =>
    have hfree : name ∉ m.classRenames.map (·.2) :=
      fun htaken => (get?_classTable_eq_none hold).mp hget (hname htaken)
    have hback : m.reversed.classTable.get? name = none := by
      cases hfound : m.reversed.classTable.get? name with
      | none => rfl
      | some old =>
        have hrename := (get?_classTable_reversed hnew).mp hfound
        exact absurd (List.mem_map.mpr ⟨_, hrename, rfl⟩) hfree
    simp only [newName, hget, Option.getD_none, hback]

theorem Invertible.newNamesArePlain (h : m.Invertible) : NewNamesArePlain m.classTable := by
  intro old new hget
  have hrename := (get?_classTable h.oldNames).mp hget
  exact ⟨h.areNames _ hrename, h.notArrays _ hrename⟩

/-! ## Texts, owners and records -/

theorem Invertible.text_back (h : m.Invertible) {s : String} (hdots : '.' ∉ s.toList)
    (hnames : ∀ name ∈ textNames s,
      name ∈ m.classRenames.map (·.2) → name ∈ m.classRenames.map (·.1)) :
    (Signature.renameClasses m.reversed.classTable
      (Signature.renameClasses m.classTable s).text).text = s := by
  have hfree : Signature.MemberFree s := Signature.memberFree_of_notMem hdots
  apply Signature.text_renameClasses_back h.newNamesArePlain.areNames hfree
  intro name hname
  exact newName_newName h.oldNames h.newNames (hnames name hname)

theorem text_renameName (classes : Signature.ClassTable) (name : String) :
    (Signature.renameName classes name).text =
      if Descriptor.isArray name then (Signature.renameClasses classes name).text
      else newName classes name := by
  unfold Signature.renameName newName
  split
  · rfl
  · cases classes.get? name <;> rfl

theorem Invertible.owner_back (h : m.Invertible) {owner : String}
    (hdots : Descriptor.isArray owner = true → '.' ∉ owner.toList)
    (hnames : ∀ name ∈ refNames owner,
      name ∈ m.classRenames.map (·.2) → name ∈ m.classRenames.map (·.1)) :
    (Signature.renameName m.reversed.classTable
      (Signature.renameName m.classTable owner).text).text = owner := by
  rw [text_renameName m.classTable]
  cases harray : Descriptor.isArray owner with
  | true =>
    -- an array type is still one after renaming, so it is read as a text both times
    have hkept : Descriptor.isArray (Signature.renameClasses m.classTable owner).text = true := by
      have hsame := Renaming.isArray_signature ⟨m.classTable, .empty, .empty⟩ owner
      rw [harray] at hsame
      exact hsame
    have htext : ∀ name ∈ textNames owner,
        name ∈ m.classRenames.map (·.2) → name ∈ m.classRenames.map (·.1) := by
      intro name hname
      exact hnames name (by simpa [refNames, harray] using hname)
    rw [if_pos rfl, text_renameName, if_pos hkept]
    exact h.text_back (hdots harray) htext
  | false =>
    have hkept : Descriptor.isArray (newName m.classTable owner) = false :=
      h.newNamesArePlain.isArray_newName harray
    have hself : owner ∈ refNames owner := by simp [refNames, harray]
    simp only [Bool.false_eq_true, if_false, text_renameName, hkept]
    exact newName_newName h.oldNames h.newNames (hnames owner hself)

theorem Invertible.entry_back (h : m.Invertible) {e : Entry} (he : e ∈ m.memberRenames) :
    reverseEntry m.reversed.classTable (reverseEntry m.classTable e) = e := by
  have hnames := h.handedOn e he
  have howner := h.owner_back (h.arrayOwners e he)
    fun name hname => hnames name (List.mem_append_left _ hname)
  have hdescriptor := h.text_back (h.descriptors e he)
    fun name hname => hnames name (List.mem_append_right _ hname)
  simp only [reverseEntry, howner, hdescriptor]

theorem Invertible.record_back (h : m.Invertible) {e : MappingEntry} (he : e ∈ m.entries) :
    reverseRecord m.reversed.classTable (reverseRecord m.classTable e.record) = e.record := by
  cases hrecord : e.record with
  | ofClass old new => rfl
  | ofField owner descriptor old new =>
    have hfield : ⟨owner, descriptor, old, new⟩ ∈ m.fieldRenames :=
      List.mem_filterMap.mpr ⟨e, he, by rw [hrecord]; rfl⟩
    have hback := h.entry_back (List.mem_append_left _ hfield)
    simp only [reverseEntry, Entry.mk.injEq] at hback
    simp only [reverseRecord, hback]
  | ofMethod owner descriptor old new =>
    have hmethod : ⟨owner, descriptor, old, new⟩ ∈ m.methodRenames :=
      List.mem_filterMap.mpr ⟨e, he, by rw [hrecord]; rfl⟩
    have hback := h.entry_back (List.mem_append_right _ hmethod)
    simp only [reverseEntry, Entry.mk.injEq] at hback
    simp only [reverseRecord, hback]

/-- A mapping set that is reversed twice is the same set again, line numbers and order included. -/
theorem reversed_reversed (h : m.Invertible) : m.reversed.reversed = m := by
  have hentries : m.reversed.reversed.entries = m.entries := by
    simp only [reversed, List.map_map]
    apply map_eq_self
    intro e he
    have hrecord := h.record_back he
    simp only [reversed] at hrecord
    simp only [Function.comp_apply, hrecord]
  calc m.reversed.reversed
      = ⟨m.source, m.target, m.reversed.reversed.entries⟩ := rfl
    _ = m := by rw [hentries]

end Classmith.MappingSet

namespace Classmith

namespace Samples

/-- Two classes exchange their names, a third hands its name on to a fourth, and the members are written
in all of these names. -/
def exchangedNames : MappingSet where
  source := "old"
  target := "new"
  entries := [⟨2, .ofClass "p/A" "p/B"⟩, ⟨3, .ofMethod "[Lp/D;" "([Lp/A;)Lp/C;" "copy" "clone"⟩,
    ⟨5, .ofClass "p/B" "p/A"⟩, ⟨6, .ofClass "p/C" "p/D"⟩, ⟨7, .ofClass "p/D" "q/E"⟩,
    ⟨0, .ofField "p/B" "Lp/Box<Lp/D;-[Lp/C;>;" "kept" "held"⟩]

theorem invertible_exchangedNames : exchangedNames.Invertible where
  oldNames := by decide +kernel
  newNames := by decide +kernel
  areNames := by decide +kernel
  notArrays := by decide +kernel
  descriptors := by decide +kernel
  arrayOwners := by decide +kernel
  handedOn := by decide +kernel

end Samples

theorem reversed_reversed_exchangedNames :
    Samples.exchangedNames.Invertible ∧
    Samples.exchangedNames.reversed.entries[1]? =
      some ⟨3, .ofMethod "[Lq/E;" "([Lp/B;)Lp/D;" "clone" "copy"⟩ ∧
    Samples.exchangedNames.reversed.reversed = Samples.exchangedNames :=
  ⟨Samples.invertible_exchangedNames, by decide +kernel,
    MappingSet.reversed_reversed Samples.invertible_exchangedNames⟩

end Classmith
