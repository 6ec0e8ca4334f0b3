import Classmith.Proofs.Pools

/-!
# Pools in use

Classes are registered, taken out and changed in place, and the index of a pool is rebuilt, in any order.
Changes in place leave the index as it is, so that it may have classes under names they no longer have.
Even then its names stand for the positions of the classes one to one. As long as no class has been renamed
since the index was last built, the names are those of the classes.
-/
namespace Classmith.Pool

/-! ## Operations -/

/-- Changes the classes in place, each by its position. -/
def edit (p : Pool) (change : Nat → Class → Class) : Pool :=
  { p with classes := p.classes.mapIdx change }

/-- A change to a pool. When it fails, the pool stays as it was left at that point. -/
abbrev InPlace := ExceptT Error (StateM Pool)

/-- Registers a class, first in the index and then in the list. -/
def register (c : Class) : InPlace Unit := do
  if (← get).contains c.name then throw (.duplicate [c.name])
  modify fun p => { p with index := p.index.insert c.name p.classes.length }
  modify fun p => { p with classes := p.classes ++ [c] }

/-- Builds a new index and puts it in the place of the old one if no name was met again. -/
def rebuild : InPlace Unit := do
  let built := positions (← get).classes 0 Table.empty
  if built.2 ≠ [] then throw (.duplicate (NameSet.ofNames built.2).toNames)
  modify fun p => { p with index := built.1 }

inductive Operation where
  /-- Starts again with a pool of the classes, if they have different names. -/
  | new (classes : List Class)
  | insert (c : Class)
  | remove (name : String)
  | clear
  | edit (change : Nat → Class → Class)
  | reindex

def Operation.command : Operation → InPlace Unit
  | .new classes =>
    match ofClasses classes with
    | .ok p => set p
    | .error e => throw e
  | .insert c => register c
  | .remove name => modify fun p => ((p.remove? name).map Prod.snd).getD p
  | .clear => set empty
  | .edit change => modify fun p => p.edit change
  | .reindex => rebuild

/-- A pool in use, with whether a class has been renamed in place since the index was last built. -/
structure Usage where
  pool : Pool
  renamed : Bool

def Usage.perform (u : Usage) (operation : Operation) : Usage where
  pool := (operation.command u.pool).2
  renamed :=
    match operation with
    | .new _ | .reindex => u.renamed && !(operation.command u.pool).1.isOk
    | .edit _ => u.renamed || (operation.command u.pool).2.names != u.pool.names
    | _ => u.renamed

/-- What becomes of an empty pool. -/
def run (operations : List Operation) : Usage := operations.foldl Usage.perform ⟨empty, false⟩

/-! ### What fails changes nothing -/

/-- The result of a change that is made as a whole or not at all. -/
def settle (p : Pool) : Except Error Pool → Except Error Unit × Pool
  | .ok q => (.ok (), q)
  | .error e => (.error e, p)

theorem bind_of_ok {α β : Type} {x : InPlace α} {k : α → InPlace β} {a : α} {p q : Pool}
    (h : x p = (.ok a, q)) : (x >>= k) p = k a q := by
  have hbind : (x >>= k) p = ExceptT.bindCont k (x p).1 (x p).2 := rfl
  rw [hbind, h]
  rfl

theorem register_eq (c : Class) (p : Pool) : register c p = p.settle (p.insert c) := by
  have hget : (get : InPlace Pool) p = (.ok p, p) := rfl
  have hcontains : p.index.contains c.name = p.contains c.name := rfl
  rw [register, bind_of_ok hget, insert, hcontains]
  cases p.contains c.name with
  | true => rfl
  | false => rfl

theorem rebuild_eq (p : Pool) : rebuild p = p.settle p.reindex := by
  have hget : (get : InPlace Pool) p = (.ok p, p) := rfl
  rw [rebuild, bind_of_ok hget, reindex]
  obtain ⟨index, repeated⟩ := positions p.classes 0 Table.empty
  cases repeated with
  | nil => rfl
  | cons name rest => rfl

theorem command_new_eq (classes : List Class) (p : Pool) :
    (Operation.new classes).command p = p.settle (ofClasses classes) := by
  rw [Operation.command]
  cases ofClasses classes with
  | ok q => rfl
  | error e => rfl

theorem unchanged_of_failed {operation : Operation} {p : Pool}
    (h : (operation.command p).1.isOk = false) : (operation.command p).2 = p := by
  have hsettle : ∀ result, (p.settle result).1.isOk = false → (p.settle result).2 = p := by
    rintro (e | q) hfailed
    · rfl
    · cases hfailed
  cases operation with
  | new classes =>
    rw [command_new_eq] at h ⊢
    exact hsettle _ h
  | insert c =>
    rw [Operation.command, register_eq] at h ⊢
    exact hsettle _ h
  | reindex =>
    rw [Operation.command, rebuild_eq] at h ⊢
    exact hsettle _ h
  | remove name => cases h
  | clear => cases h
  | edit change => cases h

/-! ## Positions -/

/-- The names in the index stand for the positions of the classes, one to one. -/
structure Indexed (p : Pool) : Prop where
  inRange : ∀ {name i}, p.index.get? name = some i → i < p.classes.length
  exists_name : ∀ {i}, i < p.classes.length → ∃ name, p.index.get? name = some i
  injective : ∀ {name other i}, p.index.get? name = some i → p.index.get? other = some i → name = other

/-- The index has every class under its name. -/
def Current (p : Pool) : Prop :=
  ∀ ⦃name i c⦄, p.index.get? name = some i → p.classes[i]? = some c → c.name = name

theorem Indexed.exists_class {p : Pool} (h : p.Indexed) {name : String} {i : Nat}
    (hi : p.index.get? name = some i) : ∃ c, p.classes[i]? = some c :=
  ⟨_, List.getElem?_eq_getElem (h.inRange hi)⟩

theorem indexed_empty : empty.Indexed where
  inRange h := by cases h
  exists_name h := by cases h
  injective h := by cases h

theorem current_empty : empty.Current := by
  intro name i c h
  cases h

/-! ### Building the index -/

theorem get?_index_of_reindex {p q : Pool} (h : p.reindex = .ok q) {name : String} {i : Nat} :
    q.index.get? name = some i ↔ ∃ c, q.classes[i]? = some c ∧ c.name = name := by
  obtain ⟨hnone, rfl⟩ := positions_of_reindex h
  rw [get?_positions hnone]
  constructor
  · rintro (hempty | ⟨j, c, hc, hname, hj⟩)
    · cases hempty
    · obtain rfl : j = i := by omega
      exact ⟨c, hc, hname⟩
  · rintro ⟨c, hc, hname⟩
    exact .inr ⟨i, c, hc, hname, by omega⟩

theorem indexed_of_reindex {p q : Pool} (h : p.reindex = .ok q) : q.Indexed where
  inRange hi := by
    obtain ⟨c, hc, -⟩ := (get?_index_of_reindex h).mp hi
    exact (List.getElem?_eq_some_iff.mp hc).1
  exists_name hi := ⟨_, (get?_index_of_reindex h).mpr ⟨_, List.getElem?_eq_getElem hi, rfl⟩⟩
  injective hi hj := by
    obtain ⟨c, hc, rfl⟩ := (get?_index_of_reindex h).mp hi
    obtain ⟨d, hd, rfl⟩ := (get?_index_of_reindex h).mp hj
    rw [hc] at hd
    cases hd
    rfl

theorem current_of_reindex {p q : Pool} (h : p.reindex = .ok q) : q.Current := by
  intro name i c hi hc
  obtain ⟨d, hd, rfl⟩ := (get?_index_of_reindex h).mp hi
  rw [hc] at hd
  cases hd
  rfl

/-! ### Registering a class -/

theorem of_insert {p q : Pool} {c : Class} (h : p.insert c = .ok q) :
    p.index.get? c.name = none ∧
      q = ⟨p.classes ++ [c], p.index.insert c.name p.classes.length⟩ := by
  unfold insert at h
  split at h
  · cases h
  · rename_i hname
    cases h
    exact ⟨by simpa [Table.contains] using hname, rfl⟩

theorem Indexed.insert {p q : Pool} (h : p.Indexed) {c : Class} (hinsert : p.insert c = .ok q) :
    q.Indexed := by
  obtain ⟨hfresh, rfl⟩ := of_insert hinsert
  have hold : ∀ {name i}, p.index.get? name = some i → name ≠ c.name ∧ i ≠ p.classes.length := by
    intro name i hi
    refine ⟨?_, Nat.ne_of_lt (h.inRange hi)⟩
    rintro rfl
    rw [hfresh] at hi
    cases hi
  constructor
  · intro name i hi
    rw [Table.get?_insert] at hi
    split at hi
    · cases hi
      simp
    · have hlt := h.inRange hi
      rw [List.length_append]
      omega
  · intro i hi
    rw [List.length_append, List.length_singleton] at hi
    by_cases hlast : i = p.classes.length
    · exact ⟨c.name, by simp [hlast]⟩
    · obtain ⟨name, hname⟩ := h.exists_name (by omega : i < p.classes.length)
      exact ⟨name, by rw [Table.get?_insert, if_neg (hold hname).1, hname]⟩
  · intro name other i hi hj
    rw [Table.get?_insert] at hi hj
    split at hi <;> split at hj
    · simp_all
    · cases hi
      exact absurd rfl (hold hj).2
    · cases hj
      exact absurd rfl (hold hi).2
    · exact h.injective hi hj

theorem Current.insert {p q : Pool} (h : p.Current) (hindexed : p.Indexed) {c : Class}
    (hinsert : p.insert c = .ok q) : q.Current := by
  obtain ⟨-, rfl⟩ := of_insert hinsert
  intro name i d hi hd
  rw [Table.get?_insert] at hi
  split at hi
  · rename_i hname
    cases hi
    rw [List.getElem?_concat_length] at hd
    cases hd
    exact hname.symm
  · rw [List.getElem?_append_left (hindexed.inRange hi)] at hd
    exact h hi hd

/-! ### Taking out a class -/

/-- What taking out a class does: the positions after its own move up by one. -/
theorem remove?_eq_some_iff {p q : Pool} {name : String} {c : Class} :
    p.remove? name = some (c, q) ↔
      ∃ position, p.index.get? name = some position ∧ p.classes[position]? = some c ∧
        q = ⟨p.classes.eraseIdx position,
          (p.index.erase name).map fun i => if position < i then i - 1 else i⟩ := by
  constructor
  · intro h
    obtain ⟨position, hposition, h⟩ := Option.bind_eq_some_iff.mp h
    obtain ⟨d, hd, h⟩ := Option.bind_eq_some_iff.mp h
    cases h
    exact ⟨position, hposition, hd, rfl⟩
  · rintro ⟨position, hposition, hc, rfl⟩
    refine Option.bind_eq_some_iff.mpr ⟨position, hposition, ?_⟩
    exact Option.bind_eq_some_iff.mpr ⟨c, hc, rfl⟩

/-- A name that is still there after a removal had a position other than the one that was freed. -/
theorem Indexed.get?_removed {p : Pool} (h : p.Indexed) {name other : String} {position j : Nat}
    (hposition : p.index.get? name = some position) :
    ((p.index.erase name).map fun i => if position < i then i - 1 else i).get? other = some j ↔
      ∃ i, p.index.get? other = some i ∧ i ≠ position ∧ j = if position < i then i - 1 else i := by
  rw [Table.get?_map, Table.get?_erase, Option.map_eq_some_iff]
  constructor
  · rintro ⟨i, hi, rfl⟩
    split at hi
    · cases hi
    · rename_i hother
      refine ⟨i, hi, ?_, rfl⟩
      rintro rfl
      exact hother (h.injective hi hposition)
  · rintro ⟨i, hi, hne, rfl⟩
    refine ⟨i, ?_, rfl⟩
    rw [if_neg, hi]
    rintro rfl
    rw [hposition] at hi
    exact hne (Option.some.inj hi).symm

theorem Indexed.remove? {p q : Pool} (h : p.Indexed) {name : String} {c : Class}
    (hremove : p.remove? name = some (c, q)) : q.Indexed := by
  obtain ⟨position, hposition, -, rfl⟩ := remove?_eq_some_iff.mp hremove
  have hlt := h.inRange hposition
  have hlength : (p.classes.eraseIdx position).length = p.classes.length - 1 :=
    List.length_eraseIdx_of_lt hlt
  constructor
  · intro other j hj
    obtain ⟨i, hi, hne, rfl⟩ := (h.get?_removed hposition).mp hj
    have hi := h.inRange hi
    simp only [hlength]
    split <;> omega
  · intro j hj
    simp only [hlength] at hj
    -- the class that is now at this position was at the next one if the freed one came before it
    obtain ⟨other, hother⟩ := h.exists_name
      (by split <;> omega : (if position ≤ j then j + 1 else j) < p.classes.length)
    exact ⟨other, (h.get?_removed hposition).mpr ⟨_, hother, by split <;> omega, by grind⟩⟩
  · intro other another j hj hj'
    obtain ⟨i, hi, hne, rfl⟩ := (h.get?_removed hposition).mp hj
    obtain ⟨i', hi', hne', heq⟩ := (h.get?_removed hposition).mp hj'
    obtain rfl : i = i' := by grind
    exact h.injective hi hi'

theorem Current.remove? {p q : Pool} (h : p.Current) (hindexed : p.Indexed) {name : String} {c : Class}
    (hremove : p.remove? name = some (c, q)) : q.Current := by
  obtain ⟨position, hposition, -, rfl⟩ := remove?_eq_some_iff.mp hremove
  intro other j d hj hd
  obtain ⟨i, hi, hne, rfl⟩ := (hindexed.get?_removed hposition).mp hj
  have hsame : (p.classes.eraseIdx position)[if position < i then i - 1 else i]? = p.classes[i]? := by
    by_cases hafter : position < i
    · rw [if_pos hafter, List.getElem?_eraseIdx_of_ge (by omega), Nat.sub_add_cancel (by omega)]
    · rw [if_neg hafter, List.getElem?_eraseIdx_of_lt (by omega)]
  exact h hi (hsame.symm.trans hd)

/-! ### Changing classes in place -/

theorem Indexed.edit {p : Pool} (h : p.Indexed) (change : Nat → Class → Class) :
    (p.edit change).Indexed := by
  have hlength : (p.edit change).classes.length = p.classes.length := List.length_mapIdx
  exact ⟨fun hi => hlength ▸ h.inRange hi, fun hi => h.exists_name (hlength ▸ hi), h.injective⟩

theorem Current.edit {p : Pool} (h : p.Current) {change : Nat → Class → Class}
    (hnames : (p.edit change).names = p.names) : (p.edit change).Current := by
  intro name i c hi hc
  have hname : p.names[i]? = some c.name := by
    rw [← hnames, names, List.getElem?_map, hc]
    rfl
  rw [names, List.getElem?_map, Option.map_eq_some_iff] at hname
  obtain ⟨d, hd, hsame⟩ := hname
  rw [← hsame]
  exact h hi hd

/-! ## Every state of a pool -/

/-- What every operation keeps. -/
structure Usage.Sound (u : Usage) : Prop where
  indexed : u.pool.Indexed
  current : u.renamed = false → u.pool.Current

theorem Usage.Sound.settle_reindex {u : Usage} (h : u.Sound) {p : Pool} {renamed : Bool}
    (hrenamed : renamed = (u.renamed && !(u.pool.settle p.reindex).1.isOk)) :
    (⟨(u.pool.settle p.reindex).2, renamed⟩ : Usage).Sound := by
  cases hindex : p.reindex with
  | ok q => exact ⟨indexed_of_reindex hindex, fun _ => current_of_reindex hindex⟩
  | error e =>
    refine ⟨h.indexed, fun hkept => h.current ?_⟩
    simpa [hrenamed, hindex, settle, Except.isOk, Except.toBool] using hkept

theorem Usage.Sound.perform {u : Usage} (h : u.Sound) (operation : Operation) :
    (u.perform operation).Sound := by
  cases operation with
  | new classes =>
    have hcommand := command_new_eq classes u.pool
    simp only [Usage.perform, hcommand]
    exact h.settle_reindex rfl
  | reindex =>
    have hcommand : Operation.reindex.command u.pool = _ := rebuild_eq u.pool
    simp only [Usage.perform, hcommand]
    exact h.settle_reindex rfl
  | insert c =>
    have hcommand : (Operation.insert c).command u.pool = _ := register_eq c u.pool
    simp only [Usage.perform, hcommand]
    cases hinsert : u.pool.insert c with
    | error e => exact h
    | ok q =>
      exact ⟨h.indexed.insert hinsert, fun hkept => (h.current hkept).insert h.indexed hinsert⟩
  | remove name =>
    have hcommand : ((Operation.remove name).command u.pool).2 =
        ((u.pool.remove? name).map Prod.snd).getD u.pool := rfl
    simp only [Usage.perform, hcommand]
    cases hremove : u.pool.remove? name with
    | none => exact h
    | some removed =>
      exact ⟨h.indexed.remove? hremove, fun hkept => (h.current hkept).remove? h.indexed hremove⟩
  | clear => exact ⟨indexed_empty, fun _ => current_empty⟩
  | edit change =>
    refine ⟨h.indexed.edit change, fun hkept => ?_⟩
    have hsame : u.renamed = false ∧ (u.pool.edit change).names = u.pool.names := by
      have hkept : (u.renamed || (u.pool.edit change).names != u.pool.names) = false := hkept
      simpa using hkept
    exact (h.current hsame.1).edit hsame.2

theorem sound_run (operations : List Operation) : (run operations).Sound := by
  suffices h : ∀ u : Usage, u.Sound → (operations.foldl Usage.perform u).Sound from
    h _ ⟨indexed_empty, fun _ => current_empty⟩
  induction operations with
  | nil => exact fun u hu => hu
  | cons operation rest ih => exact fun u hu => ih _ (hu.perform operation)

/-! ### What look-ups and removals find -/

theorem Indexed.exists_split {p : Pool} (h : p.Indexed) {name : String}
    (hname : p.contains name = true) :
    ∃ front c back, p.classes = front ++ c :: back ∧ p.index.get? name = some front.length ∧
      p.get? name = some c ∧ ∃ q, p.remove? name = some (c, q) ∧ q.classes = front ++ back := by
  obtain ⟨position, hposition⟩ := Option.isSome_iff_exists.mp hname
  obtain ⟨c, hc⟩ := h.exists_class hposition
  obtain ⟨hlt, hget⟩ := List.getElem?_eq_some_iff.mp hc
  have hfront : (p.classes.take position).length = position := by
    rw [List.length_take]
    omega
  refine ⟨p.classes.take position, c, p.classes.drop (position + 1), ?_, ?_, ?_, ?_⟩
  · rw [← hget, ← List.drop_eq_getElem_cons hlt, List.take_append_drop]
  · rw [hfront, hposition]
  · rw [get?, hposition, Option.bind_some, hc]
  · exact ⟨_, remove?_eq_some_iff.mpr ⟨position, hposition, hc, rfl⟩,
      List.eraseIdx_eq_take_drop_succ ..⟩

theorem absent_of_not_contains {p : Pool} {name : String} (h : p.contains name = false) :
    p.get? name = none ∧ p.remove? name = none := by
  have hnone : p.index.get? name = none := by simpa [contains, Table.contains] using h
  exact ⟨by rw [get?, hnone]; rfl, by rw [remove?, hnone]; rfl⟩

theorem Current.nodup {p : Pool} (h : p.Current) (hindexed : p.Indexed) : p.names.Nodup := by
  rw [names, List.Nodup, List.pairwise_map, List.pairwise_iff_getElem]
  intro i j hi hj hlt hsame
  -- one name stands for both positions
  obtain ⟨name, hname⟩ := hindexed.exists_name hi
  obtain ⟨other, hother⟩ := hindexed.exists_name hj
  rw [h hname (List.getElem?_eq_getElem hi), h hother (List.getElem?_eq_getElem hj)] at hsame
  rw [hsame, hother] at hname
  exact Nat.ne_of_gt hlt (Option.some.inj hname)

theorem Current.get?_eq_some_iff {p : Pool} (h : p.Current) (hindexed : p.Indexed) {name : String}
    {c : Class} : p.get? name = some c ↔ c ∈ p.classes ∧ c.name = name := by
  rw [get?, Option.bind_eq_some_iff]
  constructor
  · rintro ⟨i, hi, hc⟩
    exact ⟨List.mem_of_getElem? hc, h hi hc⟩
  · rintro ⟨hmem, rfl⟩
    obtain ⟨i, hc⟩ := List.mem_iff_getElem?.mp hmem
    obtain ⟨name, hname⟩ := hindexed.exists_name (List.getElem?_eq_some_iff.mp hc).1
    exact ⟨i, h hname hc ▸ hname, hc⟩

/-- In whatever order classes are registered, taken out and changed and the index rebuilt, the names in the
index stand for the positions of the classes one to one. So every name in it finds a class, which is the
only one that a removal takes out. While no class has been renamed since the index was built, the classes
have different names and are found under these and no others. What fails leaves the pool as it was. -/
theorem index_sound (operations : List Operation) :
    (run operations).pool.Indexed ∧
    (∀ name, (run operations).pool.contains name = true →
      ∃ front c back, (run operations).pool.classes = front ++ c :: back ∧
        (run operations).pool.index.get? name = some front.length ∧
        (run operations).pool.get? name = some c ∧
        ∃ q, (run operations).pool.remove? name = some (c, q) ∧ q.classes = front ++ back) ∧
    (∀ name, (run operations).pool.contains name = false →
      (run operations).pool.get? name = none ∧ (run operations).pool.remove? name = none) ∧
    ((run operations).renamed = false →
      (run operations).pool.names.Nodup ∧
      ∀ name c, (run operations).pool.get? name = some c ↔
        c ∈ (run operations).pool.classes ∧ c.name = name) ∧
    ∀ operation : Operation, (operation.command (run operations).pool).1.isOk = false →
      (operation.command (run operations).pool).2 = (run operations).pool := by
  have hsound := sound_run operations
  refine ⟨hsound.indexed, fun name => hsound.indexed.exists_split, fun name => absent_of_not_contains,
    ?_, fun operation => unchanged_of_failed⟩
  intro hkept
  exact ⟨(hsound.current hkept).nodup hsound.indexed,
    fun name c => (hsound.current hkept).get?_eq_some_iff hsound.indexed⟩

/-- A class renamed in place is still found under its old name, beside another that has its new name. -/
example :
    let p := (run [.new [{ name := "p/A" }], .edit fun _ c => { c with name := "p/B" },
      .insert { name := "p/B", superName := some "p/A" }, .reindex]).pool
    p.names = ["p/B", "p/B"] ∧ p.index.keys = ["p/A", "p/B"] ∧
      (p.get? "p/A").map (·.superName) = some none ∧
      (p.remove? "p/A").map (·.2.names) = some ["p/B"] := by
  decide +kernel

end Classmith.Pool
