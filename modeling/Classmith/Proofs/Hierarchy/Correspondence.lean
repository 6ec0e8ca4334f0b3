import Classmith.Proofs.Hierarchy.Memory

/-!
# Corresponding hierarchies

Queries look only at whether names are equal. Where a second hierarchy is the first one in new names, and
no two names have become one, every query about new names gives the old answer in new names, a failure
included.
-/
namespace Classmith

namespace ClassInfo

def rename (f : String → String) (info : ClassInfo) : ClassInfo :=
  { info with
    name := f info.name
    superName := info.superName.map f
    interfaces := info.interfaces.map f }

variable (f : String → String) (info : ClassInfo)

@[simp] theorem name_rename : (info.rename f).name = f info.name := rfl

@[simp] theorem superName_rename : (info.rename f).superName = info.superName.map f := rfl

end ClassInfo

/-- The failure of a query, with the class that it names renamed. -/
def Error.rename (f : String → String) : Error → Error
  | .unresolved name => .unresolved (f name)
  | .cyclic name => .cyclic (f name)
  | e => e

def NameSet.image (f : String → String) (s : NameSet) : NameSet := ofNames (s.toNames.map f)

namespace NameSet

variable {f : String → String}

theorem contains_image {s : NameSet} {name : String} :
    (s.image f).contains name = true ↔ ∃ i, s.contains i = true ∧ f i = name := by
  simp only [image, contains_ofNames, List.mem_map, mem_toNames]

theorem image_ofNames_singleton (name : String) : image f (ofNames [name]) = ofNames [f name] := by
  apply ext_contains
  intro i
  simp only [contains_image, contains_ofNames, List.mem_singleton, exists_eq_left]
  exact eq_comm

theorem image_add (s : NameSet) (name : String) : image f (s.add name) = (image f s).add (f name) := by
  apply ext_contains
  intro i
  simp only [contains_image, contains_add]
  constructor
  · rintro ⟨j, rfl | hj, rfl⟩
    · exact Or.inl rfl
    · exact Or.inr ⟨j, hj, rfl⟩
  · rintro (rfl | ⟨j, hj, rfl⟩)
    · exact ⟨name, Or.inl rfl, rfl⟩
    · exact ⟨j, Or.inr hj, rfl⟩

theorem image_join (s t : NameSet) : image f (s.join t) = (image f s).join (image f t) := by
  apply ext_contains
  intro i
  simp only [contains_image, contains_join, or_and_right, exists_or]

end NameSet

/-- An answer with its names renamed, those of a value by the given function. -/
def renamedAnswer (f : String → String) {α β : Type} (onValue : α → β) (answer : Except Error α) :
    Except Error β :=
  (answer.map onValue).mapError (Error.rename f)

section Answers

variable {f : String → String} {α β γ δ : Type}

theorem renamedAnswer_bind {x : Except Error α} {x' : Except Error γ} {g : α → γ}
    {y : α → Except Error β} {y' : γ → Except Error δ} {k : β → δ} (hx : x' = renamedAnswer f g x)
    (hy : ∀ a, x = .ok a → y' (g a) = renamedAnswer f k (y a)) :
    (x' >>= y') = renamedAnswer f k (x >>= y) := by
  subst hx
  cases x with
  | error e => rfl
  | ok a => exact hy a rfl

variable {inherit inherit' : String → Except Error NameSet}

theorem foldlM_listInterface_rename {l : List String}
    (hinherit : ∀ above ∈ l, inherit' (f above) = renamedAnswer f (NameSet.image f) (inherit above))
    (start : NameSet) : (l.map f).foldlM (ClassInfo.listInterface inherit') (start.image f) =
      renamedAnswer f (NameSet.image f) (l.foldlM (ClassInfo.listInterface inherit) start) := by
  induction l generalizing start with
  | nil => rfl
  | cons above rest ih =>
    rw [List.map_cons, List.foldlM_cons, List.foldlM_cons]
    have hstep : ClassInfo.listInterface inherit' (start.image f) (f above) =
        renamedAnswer f (NameSet.image f) (ClassInfo.listInterface inherit start above) := by
      refine renamedAnswer_bind (hinherit above (by simp)) fun inherited _ => ?_
      rw [← NameSet.image_add, ← NameSet.image_join]
      rfl
    refine renamedAnswer_bind hstep fun closure _ => ?_
    exact ih (fun above habove => hinherit above (List.mem_cons_of_mem _ habove)) closure

theorem ClassInfo.closure_rename {info : ClassInfo} (hinherit : ∀ above ∈ info.supertypes,
      inherit' (f above) = renamedAnswer f (NameSet.image f) (inherit above)) :
    (info.rename f).closure inherit' = renamedAnswer f (NameSet.image f) (info.closure inherit) := by
  have hown : (if info.isInterface then NameSet.ofNames [f info.name] else Table.empty) =
      NameSet.image f (if info.isInterface then NameSet.ofNames [info.name] else Table.empty) := by
    cases info.isInterface with
    | false => rfl
    | true => exact (NameSet.image_ofNames_singleton info.name).symm
  have hlisted := foldlM_listInterface_rename
    (fun above habove => hinherit above (mem_supertypes.mpr (Or.inr habove)))
    (if info.isInterface then NameSet.ofNames [info.name] else Table.empty)
  rw [← hown] at hlisted
  refine renamedAnswer_bind hlisted fun declared _ => ?_
  rw [superName_rename]
  cases hsuper : info.superName with
  | none => rfl
  | some above =>
    refine renamedAnswer_bind (hinherit above (mem_supertypes.mpr (Or.inl hsuper))) fun inherited _ => ?_
    rw [← NameSet.image_join]
    rfl

end Answers

/-! ## Corresponding hierarchies -/

namespace Hierarchy

/-- The second hierarchy is the first one in new names, as far as the old names are concerned. -/
structure Mirrors (h h' : Hierarchy) (f : String → String) (old : String → Prop) : Prop where
  lookup : ∀ name, old name → h'.lookup? (f name) = (h.lookup? name).map (ClassInfo.rename f)
  /-- What is known of an old name is known in old names. -/
  closed : ∀ name info, old name → h.lookup? name = some info →
    old info.name ∧ ∀ above ∈ info.supertypes, old above
  injective : ∀ a b, old a → old b → f a = f b → a = b
  oldRoot : old ClassInfo.rootName
  root : f ClassInfo.rootName = ClassInfo.rootName

/-- Of the known old names the walk over new names has left those that the walk over old names has. -/
def SameLeft (h : Hierarchy) (f : String → String) (old : String → Prop)
    (remaining remaining' : List String) : Prop :=
  ∀ name, old name → h.lookup? name ≠ none → (name ∈ remaining ↔ f name ∈ remaining')

namespace Mirrors

variable {h h' : Hierarchy} {f : String → String} {old : String → Prop} (hm : Mirrors h h' f old)

include hm

theorem resolve {name : String} (hname : old name) :
    Plain.resolve h' (f name) = renamedAnswer f (ClassInfo.rename f) (Plain.resolve h name) := by
  rw [Plain.resolve, Plain.resolve, hm.lookup name hname]
  cases h.lookup? name <;> rfl

theorem eq_iff {a b : String} (ha : old a) (hb : old b) : f a = f b ↔ a = b :=
  ⟨hm.injective a b ha hb, congrArg f⟩

theorem eq_root_iff {a : String} (ha : old a) : f a = ClassInfo.rootName ↔ a = ClassInfo.rootName := by
  rw [← hm.eq_iff ha hm.oldRoot, hm.root]

theorem sameLeft_names : SameLeft h f old h.names h'.names := by
  intro name hname hknown
  have hsome : (h.lookup? name).isSome := Option.isSome_iff_ne_none.mpr hknown
  have hsome' : (h'.lookup? (f name)).isSome := by
    rw [hm.lookup name hname, Option.isSome_map]
    exact hsome
  exact iff_of_true (mem_names_of_lookup? hsome) (mem_names_of_lookup? hsome')

/-- A step of both walks leaves out corresponding names, and since no two old names become one, only
those. -/
theorem sameLeft_without {remaining remaining' : List String} {name : String} (hname : old name)
    (hsame : SameLeft h f old remaining remaining') :
    SameLeft h f old (without name remaining) (without (f name) remaining') := by
  intro other hother hknown
  rw [mem_without, mem_without, hsame other hother hknown, ne_eq, ne_eq, hm.eq_iff hother hname]

theorem collect {remaining remaining' : List String} {name : String} (hname : old name)
    (hsame : SameLeft h f old remaining remaining') :
    Plain.collect h' remaining' (f name) =
      renamedAnswer f (NameSet.image f) (Plain.collect h remaining name) := by
  induction remaining using without_induction generalizing remaining' name with
  | step remaining ih =>
    have hlookup := hm.lookup name hname
    cases hinfo : h.lookup? name with
    | none =>
      rw [hinfo, Option.map_none] at hlookup
      rw [Plain.collect_of_unknown hinfo, Plain.collect_of_unknown hlookup]
      rfl
    | some info =>
      rw [hinfo, Option.map_some] at hlookup
      have hmem := hsame name hname (by simp [hinfo])
      by_cases hleft : name ∈ remaining
      · rw [Plain.collect_of_mem hinfo hleft, Plain.collect_of_mem hlookup (hmem.mp hleft)]
        apply ClassInfo.closure_rename
        intro above habove
        exact ih name hleft ((hm.closed name info hname hinfo).2 above habove)
          (hm.sameLeft_without hname hsame)
      · rw [Plain.collect_of_notMem hinfo hleft,
          Plain.collect_of_notMem hlookup fun hright => hleft (hmem.mpr hright)]
        rfl

theorem climb {remaining remaining' : List String} {target : String} {current : ClassInfo}
    (htarget : old target) (hcurrent : old current.name)
    (hsuper : ∀ above ∈ current.supertypes, old above)
    (hsame : SameLeft h f old remaining remaining') :
    Plain.climb h' (f target) remaining' (current.rename f) =
      renamedAnswer f id (Plain.climb h target remaining current) := by
  induction remaining using without_induction generalizing remaining' current with
  | step remaining ih =>
    rw [Plain.climb, Plain.climb, ClassInfo.name_rename, ClassInfo.superName_rename]
    by_cases hfound : current.name = target
    · rw [if_pos hfound, if_pos (congrArg f hfound)]
      rfl
    · rw [if_neg hfound, if_neg (mt (hm.eq_iff hcurrent htarget).mp hfound)]
      cases habove : current.superName with
      | none => rfl
      | some above =>
        have hold : old above := hsuper above (ClassInfo.mem_supertypes.mpr (Or.inl habove))
        refine renamedAnswer_bind (hm.resolve hold) fun next hnext => ?_
        have hinfo := Plain.resolve_eq_ok.mp hnext
        have hmem := hsame above hold (by simp [hinfo])
        obtain ⟨hname, hsupertypes⟩ := hm.closed above next hold hinfo
        by_cases hleft : above ∈ remaining
        · rw [dif_pos hleft, dif_pos (hmem.mp hleft)]
          exact ih above hleft hname hsupertypes (hm.sameLeft_without hold hsame)
        · rw [dif_neg hleft, dif_neg fun hright => hleft (hmem.mpr hright)]
          rfl

theorem old_of_below {name above : String} (hname : old name) (hbelow : h.Below name above) :
    old above := by
  induction hbelow with
  | refl => exact hname
  | tail _ hstep ih =>
    obtain ⟨info, hinfo, habove⟩ := hstep
    exact (hm.closed _ info ih hinfo).2 _ habove

theorem old_of_implements {name i : String} (hname : old name) (hi : h.Implements name i) : old i := by
  obtain ⟨above, info, hbelow, hinfo, hshows⟩ := hi
  obtain ⟨hown, hsupertypes⟩ := hm.closed above info (hm.old_of_below hname hbelow) hinfo
  rcases hshows with ⟨-, rfl⟩ | hlisted
  · exact hown
  · exact hsupertypes i (ClassInfo.mem_supertypes.mpr (Or.inr hlisted))

theorem isSubtype {super sub : String} (hsuper : old super) (hsub : old sub) :
    Plain.isSubtype h' (f super) (f sub) = renamedAnswer f id (Plain.isSubtype h super sub) := by
  refine renamedAnswer_bind (hm.resolve hsuper) fun target htarget => ?_
  have hold : old target.name := (hm.closed super target hsuper (Plain.resolve_eq_ok.mp htarget)).1
  change (if target.isInterface = true then _ else _) = _
  split
  · refine renamedAnswer_bind (hm.collect hsub hm.sameLeft_names) fun closure hclosure => ?_
    obtain ⟨-, -, hcontains⟩ := Plain.collect_ok hclosure
    have hsame : (closure.image f).contains (f target.name) = closure.contains target.name := by
      rw [Bool.eq_iff_iff, NameSet.contains_image]
      constructor
      · rintro ⟨i, hi, heq⟩
        have hi' : old i := hm.old_of_implements hsub ((hcontains i).mp hi)
        rwa [← hm.injective i target.name hi' hold heq]
      · intro hi
        exact ⟨target.name, hi, rfl⟩
    change Except.ok ((closure.image f).contains (f target.name)) = _
    rw [hsame]
    rfl
  · refine renamedAnswer_bind (hm.resolve hsub) fun start hstart => ?_
    obtain ⟨hname, hsupertypes⟩ := hm.closed sub start hsub (Plain.resolve_eq_ok.mp hstart)
    exact hm.climb hold hname hsupertypes hm.sameLeft_names

theorem meet {remaining remaining' : List String} {a b : ClassInfo} (ha : old a.name)
    (hb : old b.name) (hsuper : ∀ above ∈ b.supertypes, old above)
    (hsame : SameLeft h f old remaining remaining') :
    Plain.meet h' (a.rename f) remaining' (b.rename f) =
      renamedAnswer f (ClassInfo.rename f) (Plain.meet h a remaining b) := by
  induction remaining using without_induction generalizing remaining' b with
  | step remaining ih =>
    rw [Plain.meet, Plain.meet, ClassInfo.name_rename, ClassInfo.name_rename]
    by_cases haroot : a.name = ClassInfo.rootName
    · rw [if_pos haroot, if_pos ((hm.eq_root_iff ha).mpr haroot)]
      rfl
    rw [if_neg haroot, if_neg (mt (hm.eq_root_iff ha).mp haroot)]
    by_cases hbroot : b.name = ClassInfo.rootName
    · rw [if_pos hbroot, if_pos ((hm.eq_root_iff hb).mpr hbroot)]
      rfl
    rw [if_neg hbroot, if_neg (mt (hm.eq_root_iff hb).mp hbroot)]
    refine renamedAnswer_bind (hm.isSubtype ha hb) fun down _ => ?_
    rcases Bool.eq_false_or_eq_true down with rfl | rfl
    · rfl
    refine renamedAnswer_bind (hm.isSubtype hb ha) fun up _ => ?_
    rcases Bool.eq_false_or_eq_true up with rfl | rfl
    · rfl
    change (if (a.isInterface || b.isInterface) = true then _ else _) =
      renamedAnswer f (ClassInfo.rename f) (if (a.isInterface || b.isInterface) = true then _ else _)
    by_cases hinterface : (a.isInterface || b.isInterface) = true
    · have hroot := hm.resolve hm.oldRoot
      rw [hm.root] at hroot
      rw [if_pos hinterface, if_pos hinterface, hroot]
    rw [if_neg hinterface, if_neg hinterface]
    have habove : (b.rename f).superName.getD ClassInfo.rootName =
        f (b.superName.getD ClassInfo.rootName) := by
      rw [ClassInfo.superName_rename]
      cases b.superName with
      | none => exact hm.root.symm
      | some above => rfl
    have hold : old (b.superName.getD ClassInfo.rootName) := by
      cases hname : b.superName with
      | none => exact hm.oldRoot
      | some above => exact hsuper above (ClassInfo.mem_supertypes.mpr (Or.inl hname))
    rw [habove]
    refine renamedAnswer_bind (hm.resolve hold) fun next hnext => ?_
    have hinfo := Plain.resolve_eq_ok.mp hnext
    have hmem := hsame _ hold (by simp [hinfo])
    obtain ⟨hname, hsupertypes⟩ := hm.closed _ next hold hinfo
    by_cases hleft : b.superName.getD ClassInfo.rootName ∈ remaining
    · rw [dif_pos hleft, dif_pos (hmem.mp hleft)]
      exact ih _ hleft hname hsupertypes (hm.sameLeft_without hold hsame)
    · rw [dif_neg hleft, dif_neg fun hright => hleft (hmem.mpr hright)]
      rfl

theorem commonSuperclass {a b : String} (ha : old a) (hb : old b) :
    Plain.commonSuperclass h' (f a) (f b) =
      renamedAnswer f (ClassInfo.rename f) (Plain.commonSuperclass h a b) := by
  refine renamedAnswer_bind (hm.resolve ha) fun infoA hinfoA => ?_
  refine renamedAnswer_bind (hm.resolve hb) fun infoB hinfoB => ?_
  obtain ⟨hnameA, -⟩ := hm.closed a infoA ha (Plain.resolve_eq_ok.mp hinfoA)
  obtain ⟨hnameB, hsupertypes⟩ := hm.closed b infoB hb (Plain.resolve_eq_ok.mp hinfoB)
  exact hm.meet hnameA hnameB hsupertypes hm.sameLeft_names

end Mirrors

end Hierarchy

end Classmith
