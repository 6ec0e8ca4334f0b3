import Classmith.Proofs.Hierarchy.Joins

/-!
# Merging many classes

Types that are merged one after the other come to the lowest class above all of them if all are classes. With
an interface among them they come to an interface of theirs that is above all the others, or to the root.
Whether they come to that interface can depend on the order: two classes may have been merged to a superclass
that lacks the interface before the interface is met. If this happens for no two of the types, what they come
to depends on the types only.
-/
namespace Classmith

namespace Hierarchy

variable {h : Hierarchy}

/-- Merging types with the first, one after the other, gives the last. -/
inductive Accumulates (h : Hierarchy) : String → List String → String → Prop
  | done (a : String) : Accumulates h a [] a
  | next {a b ab r : String} {rest : List String} (merges : h.Merges a b ab)
    (accumulates : Accumulates h ab rest r) : Accumulates h a (b :: rest) r

/-- What a merge with the next type keeps holds at the end. -/
theorem Accumulates.invariant {a r : String} {rest : List String} (hrun : h.Accumulates a rest r)
    (good : List String → String → Prop) {types : List String}
    (hstep : ∀ seen x b r, b ∈ types → good seen x → h.Merges x b r → good (b :: seen) r)
    (hrest : ∀ b ∈ rest, b ∈ types) (seen : List String) (hstart : good seen a) :
    good (rest.reverse ++ seen) r := by
  induction hrun generalizing seen with
  | done a => exact hstart
  | @next a b ab r rest hmerges _ ih =>
    rw [List.reverse_cons, List.append_assoc]
    refine ih (fun e he => hrest e (List.mem_cons_of_mem b he)) (b :: seen) ?_
    exact hstep seen a b ab (hrest b List.mem_cons_self) hstart hmerges

section WellFormed

variable (hwf : h.WellFormed)

include hwf

/-- Of the classes, interfaces lie below the root only. -/
theorem WellFormed.eq_root_of_interface_below {i above : String} (hi : h.IsInterface i)
    (habove : h.IsClass above) (hbelow : h.Below i above) : above = ClassInfo.rootName := by
  rw [hwf.below_class_iff hi.knows habove] at hbelow
  rcases Relation.ReflTransGen.cases_head hbelow with heq | ⟨next, hextends, hrest⟩
  · subst heq
    exact absurd hi habove.not_isInterface
  · rw [hwf.superinterface i next hi hextends] at hrest
    exact eq_root_of_below (Descended.below hrest)

/-- The classes above a class form a chain. -/
theorem WellFormed.below_or_below {a x y : String} (ha : h.Knows a) (hx : h.IsClass x)
    (hy : h.IsClass y) (hax : h.Below a x) (hay : h.Below a y) : h.Below x y ∨ h.Below y x := by
  rw [hwf.below_class_iff ha hx] at hax
  rw [hwf.below_class_iff ha hy] at hay
  rcases descended_or_descended hax hay with hxy | hyx
  · exact Or.inl (Descended.below hxy)
  · exact Or.inr (Descended.below hyx)

/-- A merge of three classes is a merge of two of them. -/
theorem Merges.of_three {a b c x r : String} (ha : h.IsClass a) (hb : h.IsClass b) (hc : h.IsClass c)
    (hx : h.Merges a c x) (hr : h.Merges x b r) : r = x ∨ h.Merges a b r := by
  obtain ⟨info, -, -, hy⟩ := hwf.commonSuperclass_spec ha.knows hb.knows
  obtain ⟨hxclass, -⟩ := hx.least ha hc
  obtain ⟨hyclass, hyleast⟩ := hy.least ha hb
  obtain ⟨hrclass, hrleast⟩ := hr.least hxclass hb
  -- The merges with the second and with the third class are both above the first, so comparable.
  rcases hwf.below_or_below ha.knows hxclass hyclass hx.left hy.left with hxy | hyx
  · have hry : r = info.name := hwf.below_antisymm (hrleast info.name hyclass hxy hy.right)
      (hyleast r hrclass (hx.left.trans hr.left) hr.right)
    exact Or.inr (hry ▸ hy)
  · exact Or.inl (hwf.below_antisymm (hrleast x hxclass .refl (hy.right.trans hyx)) hr.left)

end WellFormed

/-! ## Steps -/

/-- The ways in which merged types can have come to a type. -/
inductive Reached (h : Hierarchy) (seen : List String) (x : String) : Prop
  | interface (mem : x ∈ seen) (isInterface : h.IsInterface x)
  | join (classes : ∀ e ∈ seen, h.IsClass e)
    (least : ∀ s, h.IsClass s → (∀ e ∈ seen, h.Below e s) → h.Below x s)
    (pair : ∃ a ∈ seen, ∃ c ∈ seen, h.Merges a c x)
  | root (interfaces : ∃ i ∈ seen, h.IsInterface i) (eq_root : x = ClassInfo.rootName)

/-- What merged types have come to is above all of them. -/
structure Stage (h : Hierarchy) (seen : List String) (x : String) : Prop where
  above : ∀ e ∈ seen, h.Below e x
  reached : h.Reached seen x

theorem Stage.single (hwf : h.WellFormed) {a : String} (ha : h.Knows a) : h.Stage [a] a where
  above e he := by
    obtain rfl := List.mem_singleton.mp he
    exact .refl
  reached := by
    rcases ha.isClass_or_isInterface with hclass | hinterface
    · refine .join (fun e he => ?_) (fun s _ hs => hs a List.mem_cons_self)
        ⟨a, List.mem_cons_self, a, List.mem_cons_self, hwf.merges_of_below .refl⟩
      obtain rfl := List.mem_singleton.mp he
      exact hclass
    · exact .interface List.mem_cons_self hinterface

/-- A merge with an interface gives one of the two or the root. -/
theorem Merges.eq_of_interface {x b r : String} (hr : h.Merges x b r)
    (hinterface : h.IsInterface x ∨ h.IsInterface b) :
    (h.Below b x ∧ r = x) ∨ (h.Below x b ∧ r = b) ∨ r = ClassInfo.rootName := by
  obtain ⟨hdown, hup, hroot⟩ := hr.upper hinterface
  by_cases hbx : h.Below b x
  · exact Or.inl ⟨hbx, hdown hbx⟩
  · by_cases hxb : h.Below x b
    · exact Or.inr (Or.inl ⟨hxb, hup hxb⟩)
    · exact Or.inr (Or.inr (hroot hbx hxb))

/-- Unless it is one of the two, a merge is a class. -/
theorem Merges.isClass_or_mem {a b r : String} (hr : h.Merges a b r) (ha : h.Knows a) (hb : h.Knows b) :
    h.IsClass r ∨ r = a ∨ r = b := by
  have hupper : h.IsInterface a ∨ h.IsInterface b → h.IsClass r ∨ r = a ∨ r = b := by
    intro hinterface
    rcases hr.eq_of_interface hinterface with ⟨-, heq⟩ | ⟨-, heq⟩ | rfl
    · exact Or.inr (Or.inl heq)
    · exact Or.inr (Or.inr heq)
    · exact Or.inl h.isClass_root
  rcases ha.isClass_or_isInterface with hclass | hinterface
  · rcases hb.isClass_or_isInterface with hclass' | hinterface
    · exact Or.inl (hr.least hclass hclass').1
    · exact hupper (Or.inr hinterface)
  · exact hupper (Or.inl hinterface)

theorem Reached.step (hwf : h.WellFormed) {seen : List String} {x b r : String}
    (hx : h.Reached seen x) (hb : h.Knows b) (hr : h.Merges x b r) : h.Reached (b :: seen) r := by
  have hmem : b ∈ b :: seen := List.mem_cons_self
  cases hx with
  | interface hxmem hkind =>
    have hxseen : x ∈ b :: seen := List.mem_cons_of_mem b hxmem
    rcases hr.eq_of_interface (Or.inl hkind) with ⟨-, rfl⟩ | ⟨hxb, rfl⟩ | hroot
    · exact .interface hxseen hkind
    · rcases hb.isClass_or_isInterface with hclass | hinterface
      · exact .root ⟨x, hxseen, hkind⟩ (hwf.eq_root_of_interface_below hkind hclass hxb)
      · exact .interface hmem hinterface
    · exact .root ⟨x, hxseen, hkind⟩ hroot
  | join hclasses hleast hpair =>
    obtain ⟨a, ha, c, hc, hac⟩ := hpair
    have hxclass : h.IsClass x := (hac.least (hclasses a ha) (hclasses c hc)).1
    rcases hb.isClass_or_isInterface with hclass | hinterface
    · refine .join (fun e he => ?_) (fun s hs hall => ?_) ?_
      · rcases List.mem_cons.mp he with rfl | he
        · exact hclass
        · exact hclasses e he
      · refine (hr.least hxclass hclass).2 s hs ?_ (hall b hmem)
        exact hleast s hs fun e he => hall e (List.mem_cons_of_mem b he)
      · have haSeen : a ∈ b :: seen := List.mem_cons_of_mem b ha
        rcases hac.of_three hwf (hclasses a ha) hclass (hclasses c hc) hr with rfl | hab
        · exact ⟨a, haSeen, c, List.mem_cons_of_mem b hc, hac⟩
        · exact ⟨a, haSeen, b, hmem, hab⟩
    · rcases hr.eq_of_interface (Or.inr hinterface) with ⟨hbx, rfl⟩ | ⟨-, rfl⟩ | hroot
      · exact .root ⟨b, hmem, hinterface⟩ (hwf.eq_root_of_interface_below hinterface hxclass hbx)
      · exact .interface hmem hinterface
      · exact .root ⟨b, hmem, hinterface⟩ hroot
  | root hinterfaces hroot =>
    obtain ⟨i, hi, hkind⟩ := hinterfaces
    have hleft := hr.left
    rw [hroot] at hleft
    exact .root ⟨i, List.mem_cons_of_mem b hi, hkind⟩ (eq_root_of_below hleft)

theorem Stage.step (hwf : h.WellFormed) {seen : List String} {x b r : String} (hx : h.Stage seen x)
    (hb : h.Knows b) (hr : h.Merges x b r) : h.Stage (b :: seen) r where
  above e he := by
    rcases List.mem_cons.mp he with rfl | he
    · exact hr.right
    · exact (hx.above e he).trans hr.left
  reached := hx.reached.step hwf hb hr

/-! ## Types whose order makes no difference -/

/-- If one of the types is an interface above all of them, two types below an interface among the types merge
to a type below that interface. -/
def Settled (h : Hierarchy) (types : List String) : Prop :=
  ∀ top ∈ types, h.IsInterface top → (∀ e ∈ types, h.Below e top) →
    ∀ i ∈ types, h.IsInterface i → ∀ a ∈ types, ∀ b ∈ types, h.Below a i → h.Below b i →
      ∀ r, h.Merges a b r → h.Below r i

/-- What types come to when their order makes no difference. -/
structure Total (h : Hierarchy) (types : List String) (r : String) : Prop where
  above : ∀ e ∈ types, h.Below e r
  /-- Of classes it is the lowest class above all. -/
  least : (∀ e ∈ types, h.IsClass e) →
    h.IsClass r ∧ ∀ s, h.IsClass s → (∀ e ∈ types, h.Below e s) → h.Below r s
  /-- With interfaces it is the one above all. -/
  top : ∀ i ∈ types, h.IsInterface i → (∀ e ∈ types, h.Below e i) → r = i
  /-- With interfaces of which none is above all it is the root. -/
  root : (∃ i ∈ types, h.IsInterface i) →
    (∀ i ∈ types, h.IsInterface i → ¬∀ e ∈ types, h.Below e i) → r = ClassInfo.rootName

theorem Settled.congr {types types' : List String} (hsame : ∀ e, e ∈ types' ↔ e ∈ types)
    (hsettled : h.Settled types) : h.Settled types' := by
  simpa only [Settled, hsame] using hsettled

theorem Total.congr {types types' : List String} {r : String} (hsame : ∀ e, e ∈ types' ↔ e ∈ types)
    (htotal : h.Total types r) : h.Total types' r where
  above := by simpa only [hsame] using htotal.above
  least := by simpa only [hsame] using htotal.least
  top := by simpa only [hsame] using htotal.top
  root := by simpa only [hsame] using htotal.root

theorem Total.unique (hwf : h.WellFormed) {types : List String} {r s : String}
    (hknown : ∀ e ∈ types, h.Knows e) (hr : h.Total types r) (hs : h.Total types s) : r = s := by
  by_cases hinterface : ∃ i ∈ types, h.IsInterface i
  · by_cases htop : ∃ i ∈ types, h.IsInterface i ∧ ∀ e ∈ types, h.Below e i
    · obtain ⟨i, hi, hkind, hall⟩ := htop
      rw [hr.top i hi hkind hall, hs.top i hi hkind hall]
    · have hnone : ∀ i ∈ types, h.IsInterface i → ¬∀ e ∈ types, h.Below e i :=
        fun i hi hkind hall => htop ⟨i, hi, hkind, hall⟩
      rw [hr.root hinterface hnone, hs.root hinterface hnone]
  · have hclasses : ∀ e ∈ types, h.IsClass e := fun e he =>
      (hknown e he).isClass_or_isInterface.resolve_right fun hkind => hinterface ⟨e, he, hkind⟩
    obtain ⟨hrclass, hrleast⟩ := hr.least hclasses
    obtain ⟨hsclass, hsleast⟩ := hs.least hclasses
    exact hwf.below_antisymm (hrleast s hsclass hs.above) (hsleast r hrclass hr.above)

section Settled

variable (hwf : h.WellFormed) {types : List String} {top : String} (htop : top ∈ types)
  (hkind : h.IsInterface top) (hall : ∀ e ∈ types, h.Below e top)

theorem not_below_interface {i : String} (hi : h.IsInterface i) : ¬h.Below ClassInfo.rootName i := by
  intro hbelow
  rw [eq_root_of_below hbelow] at hi
  exact h.isClass_root.not_isInterface hi

/-- Merged types stay below the interfaces that are above all that was merged. -/
def Stays (h : Hierarchy) (types seen : List String) (x : String) : Prop :=
  ∀ i ∈ types, h.IsInterface i → (∀ e ∈ seen, h.Below e i) → h.Below x i

include hwf htop hkind hall in
/-- Classes that are merged with an interface among the types were all below it. -/
theorem Settled.below_of_class (hsettled : h.Settled types) {e b : String} (he : e ∈ types)
    (hclass : h.IsClass e) (hb : b ∈ types) (hinterface : h.IsInterface b) : h.Below e b := by
  refine Classical.not_not.mp fun hnot => ?_
  -- Otherwise the two would merge to the root, which lies below no interface.
  have hback : ¬h.Below b e := by
    intro hbelow
    have hroot := hwf.eq_root_of_interface_below hinterface hclass hbelow
    exact not_below_interface hkind (hroot ▸ hall e he)
  have hmerges := hwf.merges_root hclass.knows hinterface.knows hback hnot (Or.inr hinterface)
  have hbelow := hsettled top htop hkind hall top htop hkind e he b hb (hall e he) (hall b hb) _ hmerges
  exact not_below_interface hkind hbelow

include hwf htop hkind hall in
theorem Stays.step (hsettled : h.Settled types) (hknown : ∀ e ∈ types, h.Knows e) {seen : List String}
    (hseen : ∀ e ∈ seen, e ∈ types) {x b r : String} (hx : h.Reached seen x) (hstays : h.Stays types seen x)
    (hb : b ∈ types) (hr : h.Merges x b r) : h.Stays types (b :: seen) r := by
  intro i hi hinterface habove
  have hbi : h.Below b i := habove b List.mem_cons_self
  have hxi : h.Below x i :=
    hstays i hi hinterface fun e he => habove e (List.mem_cons_of_mem b he)
  have hpairs := hsettled top htop hkind hall i hi hinterface
  cases hx with
  | interface hxmem _ => exact hpairs x (hseen x hxmem) b hb hxi hbi r hr
  | join hclasses _ hpair =>
    obtain ⟨a, ha, c, hc, hac⟩ := hpair
    rcases (hknown b hb).isClass_or_isInterface with hclass | hkindB
    · rcases hac.of_three hwf (hclasses a ha) hclass (hclasses c hc) hr with rfl | hab
      · exact hxi
      · exact hpairs a (hseen a ha) b hb (habove a (List.mem_cons_of_mem b ha)) hbi r hab
    · -- The next type is an interface above all classes so far, and so above their merge.
      have hxb : h.Below x b := hstays b hb hkindB fun e he =>
        hsettled.below_of_class hwf htop hkind hall (hseen e he) (hclasses e he) hb hkindB
      rw [(hr.upper (Or.inr hkindB)).2.1 hxb]
      exact hbi
  | root _ hroot => exact absurd (hroot ▸ hxi) (not_below_interface hinterface)

end Settled

section Runs

variable (hwf : h.WellFormed) {types : List String} {a r : String} {rest : List String}

include hwf

theorem Accumulates.stage (hknown : ∀ e ∈ a :: rest, h.Knows e) (hrun : h.Accumulates a rest r) :
    h.Stage (rest.reverse ++ [a]) r :=
  hrun.invariant h.Stage (fun _ _ b _ hb hx hr => hx.step hwf (hknown b hb) hr)
    (fun _ hb => List.mem_cons_of_mem a hb) [a] (Stage.single hwf (hknown a List.mem_cons_self))

theorem Accumulates.stays (hsettled : h.Settled (a :: rest)) (hknown : ∀ e ∈ a :: rest, h.Knows e)
    {top : String} (htop : top ∈ a :: rest) (hkind : h.IsInterface top)
    (hall : ∀ e ∈ a :: rest, h.Below e top) (hrun : h.Accumulates a rest r) : h.Below r top := by
  have hrest : ∀ b ∈ rest, b ∈ a :: rest := fun _ hb => List.mem_cons_of_mem a hb
  have hend : (∀ e ∈ rest.reverse ++ [a], e ∈ a :: rest) ∧ h.Reached (rest.reverse ++ [a]) r ∧
      h.Stays (a :: rest) (rest.reverse ++ [a]) r := by
    refine hrun.invariant (fun seen x => (∀ e ∈ seen, e ∈ a :: rest) ∧ h.Reached seen x ∧
      h.Stays (a :: rest) seen x) ?_ hrest [a] ?_
    · rintro seen x b s hb ⟨hseen, hx, hstays⟩ hs
      refine ⟨fun e he => ?_, hx.step hwf (hknown b hb) hs,
        hstays.step hwf htop hkind hall hsettled hknown hseen hx hb hs⟩
      rcases List.mem_cons.mp he with rfl | he
      · exact hb
      · exact hseen e he
    · refine ⟨fun e he => ?_, (Stage.single hwf (hknown a List.mem_cons_self)).reached,
        fun i _ _ hbelow => hbelow a List.mem_cons_self⟩
      rw [List.mem_singleton.mp he]
      exact List.mem_cons_self
  exact hend.2.2 top htop hkind fun e he => hall e (hend.1 e he)

theorem Accumulates.total (hsettled : h.Settled (a :: rest)) (hknown : ∀ e ∈ a :: rest, h.Knows e)
    (hrun : h.Accumulates a rest r) : h.Total (a :: rest) r := by
  have hsame : ∀ e, e ∈ rest.reverse ++ [a] ↔ e ∈ a :: rest := by
    intro e
    simp [or_comm]
  obtain ⟨habove, hreached⟩ := hrun.stage hwf hknown
  simp only [hsame] at habove
  refine ⟨habove, fun hclasses => ?_, fun i hi hkind hall => ?_, fun hinterface hnone => ?_⟩
  · cases hreached with
    | interface hmem hkind => exact absurd hkind (hclasses r ((hsame r).mp hmem)).not_isInterface
    | join hseen hleast hpair =>
      obtain ⟨b, hb, c, hc, hbc⟩ := hpair
      refine ⟨(hbc.least (hseen b hb) (hseen c hc)).1, fun s hs hall => hleast s hs fun e he => ?_⟩
      exact hall e ((hsame e).mp he)
    | root hinterfaces _ =>
      obtain ⟨i, hi, hkind⟩ := hinterfaces
      exact absurd hkind (hclasses i ((hsame i).mp hi)).not_isInterface
  · have hbelow : h.Below r i := hrun.stays hwf hsettled hknown hi hkind hall
    exact hwf.below_antisymm hbelow (habove i hi)
  · cases hreached with
    | interface hmem hkind => exact absurd habove (hnone r ((hsame r).mp hmem) hkind)
    | join hseen =>
      obtain ⟨i, hi, hkind⟩ := hinterface
      exact absurd hkind (hseen i ((hsame i).mpr hi)).not_isInterface
    | root _ hroot => exact hroot

omit hwf in
/-- The root stays. -/
theorem Accumulates.eq_root (hrun : h.Accumulates ClassInfo.rootName rest r) : r = ClassInfo.rootName := by
  refine hrun.invariant (fun _ x => x = ClassInfo.rootName) ?_ (fun b (hb : b ∈ rest) => hb) [] rfl
  rintro _ x b s - rfl hs
  exact eq_root_of_below hs.left

omit hwf in
/-- An interface stays while types below it are met. -/
theorem Accumulates.eq_of_top {top : String} (hkind : h.IsInterface top)
    (hall : ∀ e ∈ rest, h.Below e top) (hrun : h.Accumulates top rest r) : r = top := by
  refine hrun.invariant (fun _ x => x = top) ?_ (fun b (hb : b ∈ rest) => hb) [] rfl
  rintro _ x b s hb rfl hs
  exact (hs.upper (Or.inl hkind)).1 (hall b hb)

/-- Two types that merge to no type below an interface are lost when the interface is met. -/
theorem Accumulates.eq_root_of_lost {b i ab : String} (ha : h.Knows a) (hb : h.Knows b)
    (hi : h.IsInterface i) (hai : h.Below a i) (hbi : h.Below b i) (hab : h.Merges a b ab)
    (hnot : ¬h.Below ab i) (hrun : h.Accumulates a (b :: i :: rest) r) : r = ClassInfo.rootName := by
  cases hrun with
  | @next _ _ ab' _ _ hab' hrun =>
    obtain rfl := hab.unique hwf ha hb hab'
    cases hrun with
    | @next _ _ x _ _ hx hrun =>
      suffices hroot : x = ClassInfo.rootName by
        rw [hroot] at hrun
        exact hrun.eq_root
      rcases hx.eq_of_interface (Or.inr hi) with ⟨hback, rfl⟩ | ⟨hforth, -⟩ | hroot
      · rcases hab.isClass_or_mem ha hb with hclass | rfl | rfl
        · exact hwf.eq_root_of_interface_below hi hclass hback
        · exact absurd hai hnot
        · exact absurd hbi hnot
      · exact absurd hforth hnot
      · exact hroot

/-- Types whose order makes a difference can be put into an order that keeps the interface above all of them
and into one that comes to the root. -/
theorem exists_orders (hnot : ¬h.Settled types) : ∃ top rest a rest',
    types.Perm (top :: rest) ∧ types.Perm (a :: rest') ∧ h.IsInterface top ∧
      (∀ e ∈ types, h.Below e top) ∧ (∀ r, h.Accumulates top rest r → r = top) ∧
      ∀ r, h.Accumulates a rest' r → r = ClassInfo.rootName := by
  simp only [Settled, Classical.not_forall] at hnot
  obtain ⟨top, htop, hkind, hall, i, hi, hinterface, a, ha, b, hb, hai, hbi, ab, hab, hlost⟩ := hnot
  have hknown : ∀ e ∈ types, h.Knows e := fun e he => hkind.knows.of_below (hall e he)
  have hupper : ∀ x ∈ types, ∀ y ∈ types, h.Below y x → h.Merges x y ab → ab = x :=
    fun x hx y hy hbelow hmerges =>
      hmerges.unique hwf (hknown x hx) (hknown y hy) (hwf.merges_of_below hbelow)
  -- The merge of comparable types is the upper one, so the three types that lose the interface differ.
  have hba : b ≠ a := by
    rintro rfl
    rw [hupper b hb b hb .refl hab] at hlost
    exact hlost hai
  have hia : i ≠ a := by
    rintro rfl
    rw [hupper i hi b hb hbi hab] at hlost
    exact hlost .refl
  have hib : i ≠ b := by
    rintro rfl
    rw [hupper i hi a ha hai hab.symm] at hlost
    exact hlost .refl
  have hbrest : b ∈ types.erase a := (List.mem_erase_of_ne hba).mpr hb
  have hirest : i ∈ (types.erase a).erase b :=
    (List.mem_erase_of_ne hib).mpr ((List.mem_erase_of_ne hia).mpr hi)
  refine ⟨top, types.erase top, a, b :: i :: ((types.erase a).erase b).erase i,
    List.perm_cons_erase htop, ?_, hkind, hall, fun r hrun => ?_, fun r hrun => ?_⟩
  · exact (List.perm_cons_erase ha).trans
      (((List.perm_cons_erase hbrest).trans ((List.perm_cons_erase hirest).cons b)).cons a)
  · exact hrun.eq_of_top hkind fun e he => hall e (List.mem_of_mem_erase he)
  · exact hrun.eq_root_of_lost hwf (hknown a ha) (hknown b hb) hinterface hai hbi hab hlost

end Runs

end Hierarchy

end Classmith
