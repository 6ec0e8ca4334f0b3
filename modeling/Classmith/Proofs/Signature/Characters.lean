import Classmith.Proofs.Signature.Substitution

/-!
# The characters of a renamed text

Renaming writes no character of its own: each one stands in the old text or in a new name of the table.
-/
namespace Classmith.Signature

variable {classes : ClassTable} {p : Char → Prop}

/-- All characters of the new names have a property. -/
def NewNamesHave (p : Char → Prop) (classes : ClassTable) : Prop :=
  ∀ old new, classes.get? old = some new → ∀ c ∈ new.toList, p c

theorem NewNamesHave.newName (hnew : NewNamesHave p classes) {name : String}
    (h : ∀ c ∈ name.toList, p c) : ∀ c ∈ (newName classes name).toList, p c := by
  unfold Signature.newName
  cases hget : classes.get? name with
  | none => exact h
  | some new => exact hnew name new hget

theorem NewNamesHave.newMember (hnew : NewNamesHave p classes) (oldOuter newOuter : String)
    {name : String} (h : ∀ c ∈ name.toList, p c) :
    ∀ c ∈ (newMember classes oldOuter newOuter name).toList, p c := by
  unfold Signature.newMember newBinary
  cases hget : classes.get? (Name.nested oldOuter name) with
  | none => simpa [memberName?_nested] using h
  | some new =>
    rw [Option.getD_some]
    cases hmember : memberName? newOuter new with
    | none => exact h
    | some inner =>
      -- what is written is the end of the new name
      have hshown : new = newOuter ++ "$" ++ inner := memberName?_eq_some_iff.mp hmember
      have hchars : ∀ c ∈ new.toList, p c := hnew _ _ hget
      rw [hshown, String.toList_append] at hchars
      exact (List.forall_mem_append.mp hchars).2

mutual

theorem TypeSig.forall_mem_print_rename (hnew : NewNamesHave p classes) (t : TypeSig)
    (h : ∀ c ∈ t.print, p c) : ∀ c ∈ (t.rename classes).print, p c := by
  cases t with
  | base letter => exact h
  | typeVar name => exact h
  | array element =>
    simp only [TypeSig.print, TypeSig.rename, List.forall_mem_cons] at h ⊢
    exact ⟨h.1, TypeSig.forall_mem_print_rename hnew element h.2⟩
  | object name arguments members =>
    simp only [TypeSig.print, TypeSig.rename, List.forall_mem_append, List.forall_mem_cons,
      List.cons_append] at h ⊢
    obtain ⟨hmark, ⟨⟨hname, harguments⟩, hmembers⟩, hend⟩ := h
    have hnewArguments := Arguments.forall_mem_print_rename hnew arguments harguments
    have hnewMembers := Members.forall_mem_print_rename hnew name (newName classes name) members
      hmembers
    exact ⟨hmark, ⟨⟨hnew.newName hname, hnewArguments⟩, hnewMembers⟩, hend⟩
termination_by structural t

theorem Arguments.forall_mem_print_rename (hnew : NewNamesHave p classes) (a : Arguments)
    (h : ∀ c ∈ a.print, p c) : ∀ c ∈ (a.rename classes).print, p c := by
  cases a with
  | absent => exact h
  | given list =>
    simp only [Arguments.print, Arguments.rename, List.forall_mem_append, List.forall_mem_cons,
      List.cons_append] at h ⊢
    exact ⟨h.1, ArgumentList.forall_mem_print_rename hnew list h.2.1, h.2.2⟩
termination_by structural a

theorem ArgumentList.forall_mem_print_rename (hnew : NewNamesHave p classes) (l : ArgumentList)
    (h : ∀ c ∈ l.print, p c) : ∀ c ∈ (l.rename classes).print, p c := by
  cases l with
  | nil => exact h
  | any rest =>
    simp only [ArgumentList.print, ArgumentList.rename, List.forall_mem_cons] at h ⊢
    exact ⟨h.1, ArgumentList.forall_mem_print_rename hnew rest h.2⟩
  | type bound type rest =>
    simp only [ArgumentList.print, ArgumentList.rename, List.forall_mem_append] at h ⊢
    obtain ⟨⟨hbound, htype⟩, hrest⟩ := h
    have hnewType := TypeSig.forall_mem_print_rename hnew type htype
    have hnewRest := ArgumentList.forall_mem_print_rename hnew rest hrest
    exact ⟨⟨hbound, hnewType⟩, hnewRest⟩
termination_by structural l

theorem Members.forall_mem_print_rename (hnew : NewNamesHave p classes)
    (oldOuter newOuter : String) (m : Members) (h : ∀ c ∈ m.print, p c) :
    ∀ c ∈ (m.rename classes oldOuter newOuter).print, p c := by
  cases m with
  | nil => exact h
  | cons name arguments rest =>
    simp only [Members.print, Members.rename, List.forall_mem_append, List.forall_mem_cons,
      List.cons_append] at h ⊢
    obtain ⟨hmark, ⟨hname, harguments⟩, hrest⟩ := h
    have hnewArguments := Arguments.forall_mem_print_rename hnew arguments harguments
    have hnewRest := Members.forall_mem_print_rename hnew (Name.nested oldOuter name)
      (newBinary classes oldOuter newOuter name) rest hrest
    exact ⟨hmark, ⟨hnew.newMember oldOuter newOuter hname, hnewArguments⟩, hnewRest⟩
termination_by structural m

end

theorem Formal.forall_mem_print_rename (hnew : NewNamesHave p classes) (f : Formal)
    (h : ∀ c ∈ f.print, p c) : ∀ c ∈ (f.rename classes).print, p c := by
  simp only [Formal.print, Formal.rename, List.forall_mem_append, List.forall_mem_cons,
    List.forall_mem_flatMap] at h ⊢
  obtain ⟨⟨hname, hmark, hclass⟩, hinterfaces⟩ := h
  refine ⟨⟨hname, hmark, ?_⟩, ?_⟩
  · cases hbound : f.classBound with
    | none => simp
    | some t =>
      rw [hbound] at hclass
      exact t.forall_mem_print_rename hnew hclass
  · intro t ht
    obtain ⟨old, hold, rfl⟩ := List.mem_map.mp ht
    have hold := hinterfaces old hold
    exact ⟨hold.1, old.forall_mem_print_rename hnew hold.2⟩

theorem Tree.forall_mem_print_rename (hnew : NewNamesHave p classes) (t : Tree)
    (h : ∀ c ∈ t.print, p c) : ∀ c ∈ (t.rename classes).print, p c := by
  obtain ⟨formals, items⟩ := t
  rw [Tree.rename_eq]
  obtain ⟨hformals, hitems⟩ := List.forall_mem_append.mp h
  refine List.forall_mem_append.mpr ⟨?_, ?_⟩
  · cases formals with
    | none => simp
    | some formals =>
      simp only [Option.map_some, List.forall_mem_append, List.forall_mem_cons,
        List.forall_mem_flatMap, List.cons_append] at hformals ⊢
      refine ⟨hformals.1, ?_, hformals.2.2⟩
      intro f hf
      obtain ⟨old, hold, rfl⟩ := List.mem_map.mp hf
      exact old.forall_mem_print_rename hnew (hformals.2.1 old hold)
  · simp only [List.forall_mem_flatMap] at hitems ⊢
    intro item hitem
    obtain ⟨old, hold, rfl⟩ := List.mem_map.mp hitem
    cases old with
    | mark c => exact hitems _ hold
    | type t => exact t.forall_mem_print_rename hnew (hitems _ hold)

theorem forall_mem_renameClasses (hnew : NewNamesHave p classes) {s : String}
    (h : ∀ c ∈ s.toList, p c) : ∀ c ∈ (renameClasses classes s).text.toList, p c := by
  rw [text_renameClasses]
  cases hread : parse? s.toList with
  | none => exact h
  | some t =>
    rw [← (parse?_eq_some hread).1] at h
    simp only [Option.map_some, Option.getD_some, String.toList_ofList]
    exact t.forall_mem_print_rename hnew h

end Classmith.Signature
