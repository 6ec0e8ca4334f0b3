import Classmith.Proofs.Simulation.Declarations

/-!
# Shuffles of the operand stack

The instructions that only move stack entries are defined by words: each has a top block of words, some
a second block below it, and they remove, copy or exchange whole blocks. An entry of two words cannot
be divided between blocks. The simulation works on entries and chooses by their categories, and it
succeeds exactly where the blocks can be cut out of the stack.
-/
namespace Classmith.Simulation

/-! ## Words -/

/-- A word of the operand stack. The two words of a value name the value they belong to. -/
inductive Word where
  | single (v : Value)
  | upper (v : Value)
  | lower (v : Value)

/-- A value that stands for itself on the stack: null, or a valid value with its field type. -/
def Value.IsWhole (v : Value) : Prop := v.isNull = true ∨ v.isValid = true ∧ v.descriptor.isSome = true

theorem Value.isWhole_iff (v : Value) : v.IsWhole ↔ ∃ c, v.category = some c := by
  unfold IsWhole category
  cases v.isNull <;> cases v.isValid <;> cases v.descriptor <;> simp

/-- The words of an entry; an unusable one takes one. -/
def Value.words (v : Value) : List Word :=
  if v.category = some .two then [.upper v, .lower v] else [.single v]

/-- A stack as a sequence of words, top first. -/
def wordsOf (entries : List Value) : List Word := entries.flatMap Value.words

theorem wordsOf_append (l l' : List Value) : wordsOf (l ++ l') = wordsOf l ++ wordsOf l' := by
  simp [wordsOf]

/-- The entries are whole values that fill a block of words exactly. -/
structure Fills (count : Nat) (entries : List Value) : Prop where
  whole : ∀ v ∈ entries, v.IsWhole
  count : (wordsOf entries).length = count

/-- The words that values of the given categories take. -/
def wordCount : List Category → Nat
  | [] => 0
  | c :: rest => c.words + wordCount rest

theorem length_words {v : Value} {c : Category} (h : v.category = some c) :
    v.words.length = c.words := by
  unfold Value.words
  cases c <;> simp [h, Category.words]

theorem length_wordsOf {entries : List Value} {categories : List Category}
    (h : entries.map Value.category = categories.map some) :
    (wordsOf entries).length = wordCount categories := by
  induction entries generalizing categories with
  | nil =>
    cases categories with
    | nil => rfl
    | cons c rest => cases h
  | cons v entries ih =>
    cases categories with
    | nil => cases h
    | cons c rest =>
      simp only [List.map_cons, List.cons.injEq] at h
      have hrest := ih h.2
      simp only [wordsOf, List.flatMap_cons, List.length_append, wordCount, length_words h.1] at hrest ⊢
      omega

theorem fills_iff {count : Nat} {entries : List Value} :
    Fills count entries ↔
      ∃ categories : List Category, entries.map Value.category = categories.map some ∧
        wordCount categories = count := by
  constructor
  · intro h
    obtain ⟨categories, hcategories⟩ :
        ∃ categories : List Category, entries.map Value.category = categories.map some := by
      have hwhole := h.whole
      clear h
      induction entries with
      | nil => exact ⟨[], rfl⟩
      | cons v rest ih =>
        obtain ⟨c, hc⟩ := v.isWhole_iff.mp (hwhole v List.mem_cons_self)
        obtain ⟨categories, hrest⟩ := ih fun w hw => hwhole w (List.mem_cons_of_mem v hw)
        exact ⟨c :: categories, by simp [hc, hrest]⟩
    refine ⟨categories, hcategories, ?_⟩
    rw [← length_wordsOf hcategories]
    exact h.count
  · rintro ⟨categories, hcategories, rfl⟩
    refine ⟨fun v hv => ?_, length_wordsOf hcategories⟩
    have hmem := List.mem_map_of_mem (f := Value.category) hv
    rw [hcategories] at hmem
    obtain ⟨c, -, hc⟩ := List.mem_map.mp hmem
    exact v.isWhole_iff.mpr ⟨c, hc.symm⟩

theorem fills_zero {entries : List Value} : Fills 0 entries ↔ entries = [] := by
  constructor
  · intro h
    cases entries with
    | nil => rfl
    | cons v rest =>
      have hcount := h.count
      simp only [wordsOf, List.flatMap_cons, List.length_append, Value.words] at hcount
      split at hcount <;> simp at hcount
  · rintro rfl
    exact ⟨by simp, rfl⟩

/-! ## Blocks -/

/-- The instructions that only move stack entries. -/
inductive Shuffle where
  | pop
  | pop2
  | dup (form : DupForm)
  | swap
deriving DecidableEq, Repr

namespace DupForm

/-- The words that are copied. -/
def top : DupForm → Nat
  | dup | dupX1 | dupX2 => 1
  | dup2 | dup2X1 | dup2X2 => 2

/-- The words that the copy goes below, besides those that are copied. -/
def below : DupForm → Nat
  | dup | dup2 => 0
  | dupX1 | dup2X1 => 1
  | dupX2 | dup2X2 => 2

def opcode : DupForm → UInt8
  | dup => 0x59
  | dupX1 => 0x5a
  | dupX2 => 0x5b
  | dup2 => 0x5c
  | dup2X1 => 0x5d
  | dup2X2 => 0x5e

end DupForm

namespace Shuffle

def opcode : Shuffle → UInt8
  | pop => 0x57
  | pop2 => 0x58
  | dup form => form.opcode
  | swap => 0x5f

def effect : Shuffle → Effect
  | pop => .pop
  | pop2 => .pop2
  | dup form => .dup form
  | swap => .swap

/-- The words of the top block. -/
def top : Shuffle → Nat
  | pop => 1
  | pop2 => 2
  | dup form => form.top
  | swap => 1

/-- The words of the block below the top one, if there is one. -/
def below : Shuffle → Nat
  | pop | pop2 => 0
  | dup form => form.below
  | swap => 1

/-- What becomes of the two blocks. -/
def move {α : Type} (upper lower : List α) : Shuffle → List α
  | pop | pop2 => lower
  | dup _ => upper ++ lower ++ upper
  | swap => lower ++ upper

/-- A shuffle of a stack of single words. -/
def onWords {α : Type} (op : Shuffle) (words : List α) : List α :=
  op.move (words.take op.top) ((words.drop op.top).take op.below) ++ words.drop (op.top + op.below)

/-- The blocks of a shuffle at the top of a stack, and the rest of it. -/
structure Divides (op : Shuffle) (stack upper lower rest : List Value) : Prop where
  stack : stack = upper ++ lower ++ rest
  upper : Fills op.top upper
  lower : Fills op.below lower

theorem ofOpcode?_opcode (op : Shuffle) : Effect.ofOpcode? op.opcode = some op.effect := by
  cases op with
  | dup form => cases form <;> rfl
  | _ => rfl

theorem move_append {α β : Type} (f : List α → List β) (hf : ∀ l l', f (l ++ l') = f l ++ f l')
    (op : Shuffle) (upper lower : List α) :
    f (op.move upper lower) = op.move (f upper) (f lower) := by
  cases op <;> simp [move, hf]

theorem onWords_append {α : Type} (op : Shuffle) {upper lower rest : List α}
    (hupper : upper.length = op.top) (hlower : lower.length = op.below) :
    op.onWords (upper ++ lower ++ rest) = op.move upper lower ++ rest := by
  have hboth : (upper ++ lower).length = op.top + op.below := by
    rw [List.length_append, hupper, hlower]
  rw [onWords, ← hboth, List.drop_left, List.append_assoc, ← hupper, List.take_left, List.drop_left,
    ← hlower, List.take_left]

/-- Moving entries that fill the blocks moves the words of the stack. -/
theorem Divides.wordsOf_move {op : Shuffle} {stack upper lower rest : List Value}
    (h : op.Divides stack upper lower rest) :
    wordsOf (op.move upper lower ++ rest) = op.onWords (wordsOf stack) := by
  rw [h.stack, wordsOf_append, wordsOf_append, wordsOf_append,
    op.onWords_append h.upper.count h.lower.count, op.move_append wordsOf wordsOf_append]

end Shuffle

/-! ## The forms of duplications -/

theorem wordCount_eq_zero {l : List Category} (h : wordCount l = 0) : l = [] := by
  cases l with
  | nil => rfl
  | cons c rest => cases c <;> simp [wordCount, Category.words] at h

theorem wordCount_eq_one {l : List Category} (h : wordCount l = 1) : l = [.one] := by
  cases l with
  | nil => cases h
  | cons c rest =>
    cases c with
    | one =>
      have hrest : wordCount rest = 0 := by simpa [wordCount, Category.words] using h
      rw [wordCount_eq_zero hrest]
    | two =>
      simp only [wordCount, Category.words] at h
      omega

theorem wordCount_eq_two {l : List Category} (h : wordCount l = 2) : l = [.two] ∨ l = [.one, .one] := by
  cases l with
  | nil => cases h
  | cons c rest =>
    cases c with
    | one =>
      simp only [wordCount, Category.words] at h
      have hrest : wordCount rest = 1 := by omega
      exact .inr (by rw [wordCount_eq_one hrest])
    | two =>
      have hrest : wordCount rest = 0 := by simpa [wordCount, Category.words] using h
      exact .inl (by rw [wordCount_eq_zero hrest])

namespace Sim

/-- Every way to fill the two blocks of a form is one of its shapes. -/
theorem dupShape?_of_wordCount {form : DupForm} {upper lower : List Category}
    (hupper : wordCount upper = form.top) (hlower : wordCount lower = form.below)
    (more : List (Option Category)) :
    dupShape? form (upper.map some ++ lower.map some ++ more) = some (upper.length, lower.length) := by
  cases form with
  | dup =>
    obtain rfl := wordCount_eq_one hupper
    obtain rfl := wordCount_eq_zero hlower
    rfl
  | dupX1 =>
    obtain rfl := wordCount_eq_one hupper
    obtain rfl := wordCount_eq_one hlower
    rfl
  | dupX2 =>
    obtain rfl := wordCount_eq_one hupper
    obtain rfl | rfl := wordCount_eq_two hlower <;> rfl
  | dup2 =>
    obtain rfl := wordCount_eq_zero hlower
    obtain rfl | rfl := wordCount_eq_two hupper <;> rfl
  | dup2X1 =>
    obtain rfl := wordCount_eq_one hlower
    obtain rfl | rfl := wordCount_eq_two hupper <;> rfl
  | dup2X2 =>
    obtain rfl | rfl := wordCount_eq_two hupper <;>
      obtain rfl | rfl := wordCount_eq_two hlower <;> rfl

/-- Every shape of a form fills its two blocks and counts their entries. -/
theorem wordCount_of_dupShape? {form : DupForm} {l : List (Option Category)} {shape : Nat × Nat}
    (h : dupShape? form l = some shape) :
    ∃ upper lower more, l = upper.map some ++ lower.map some ++ more ∧
      wordCount upper = form.top ∧ wordCount lower = form.below ∧
      (upper.length, lower.length) = shape := by
  unfold dupShape? at h
  split at h
  · exact ⟨[.one], [], _, rfl, rfl, rfl, Option.some.inj h⟩
  · exact ⟨[.one], [.one], _, rfl, rfl, rfl, Option.some.inj h⟩
  · exact ⟨[.one], [.one, .one], _, rfl, rfl, rfl, Option.some.inj h⟩
  · exact ⟨[.one], [.two], _, rfl, rfl, rfl, Option.some.inj h⟩
  · exact ⟨[.one, .one], [], _, rfl, rfl, rfl, Option.some.inj h⟩
  · exact ⟨[.two], [], _, rfl, rfl, rfl, Option.some.inj h⟩
  · exact ⟨[.one, .one], [.one], _, rfl, rfl, rfl, Option.some.inj h⟩
  · exact ⟨[.two], [.one], _, rfl, rfl, rfl, Option.some.inj h⟩
  · exact ⟨[.one, .one], [.one, .one], _, rfl, rfl, rfl, Option.some.inj h⟩
  · exact ⟨[.two], [.one, .one], _, rfl, rfl, rfl, Option.some.inj h⟩
  · exact ⟨[.one, .one], [.two], _, rfl, rfl, rfl, Option.some.inj h⟩
  · exact ⟨[.two], [.two], _, rfl, rfl, rfl, Option.some.inj h⟩
  · cases h

/-- The categories of the top entries, none below the bottom of the stack. -/
def categories : (count : Nat) → List Value → List (Option Category)
  | 0, _ => []
  | count + 1, [] => none :: categories count []
  | count + 1, v :: rest => v.category :: categories count rest

theorem categories_four (s : State) :
    [s.categoryAt 0, s.categoryAt 1, s.categoryAt 2, s.categoryAt 3] = categories 4 s.stack := by
  unfold State.categoryAt State.peek?
  rcases s.stack with _ | ⟨_, _ | ⟨_, _ | ⟨_, _ | ⟨_, rest⟩⟩⟩⟩ <;> rfl

theorem categories_append {entries : List Value} {known : List Category}
    (h : entries.map Value.category = known.map some) (count : Nat) (rest : List Value) :
    categories (known.length + count) (entries ++ rest) = known.map some ++ categories count rest := by
  induction entries generalizing known with
  | nil =>
    cases known with
    | nil => simp
    | cons c known => cases h
  | cons v entries ih =>
    cases known with
    | nil => cases h
    | cons c known =>
      simp only [List.map_cons, List.cons.injEq] at h
      rw [List.length_cons, Nat.add_right_comm]
      simp only [List.cons_append, categories, List.map_cons, h.1, ih h.2]

/-- Where categories are known the stack has entries. -/
theorem exists_entries_of_categories {known : List Category} {more : List (Option Category)}
    {count : Nat} {stack : List Value} (h : categories count stack = known.map some ++ more) :
    ∃ entries rest, stack = entries ++ rest ∧ entries.map Value.category = known.map some := by
  induction known generalizing count stack with
  | nil => exact ⟨[], stack, rfl, rfl⟩
  | cons c known ih =>
    cases count with
    | zero => cases h
    | succ count =>
      cases stack with
      | nil => cases h
      | cons v stack =>
        simp only [categories, List.map_cons, List.cons_append, List.cons.injEq] at h
        obtain ⟨entries, rest, rfl, hentries⟩ := ih h.2
        exact ⟨v :: entries, rest, rfl, by simp [h.1, hentries]⟩

theorem length_le_two_of_wordCount {l : List Category} (h : wordCount l ≤ 2) : l.length ≤ 2 := by
  have hle : ∀ l : List Category, l.length ≤ wordCount l := by
    intro l
    induction l with
    | nil => exact Nat.le_refl 0
    | cons c rest ih =>
      have hpos : 1 ≤ c.words := by cases c <;> simp [Category.words]
      simp only [List.length_cons, wordCount]
      omega
  exact Nat.le_trans (hle l) h

theorem duplicate_of_divides {form : DupForm} {s : State} {upper lower rest : List Value}
    (h : (Shuffle.dup form).Divides s.stack upper lower rest) :
    duplicate form s = .ok ((), { s with stack := upper ++ lower ++ upper ++ rest }) := by
  obtain ⟨above, habove, hupper⟩ := fills_iff.mp h.upper
  obtain ⟨beneath, hbeneath, hlower⟩ := fills_iff.mp h.lower
  have hlengths := congrArg List.length habove
  have hlengths' := congrArg List.length hbeneath
  simp only [List.length_map] at hlengths hlengths'
  -- two blocks of at most two words each lie within the four entries that are looked at
  have hfour : categories 4 s.stack = above.map some ++ beneath.map some ++
      categories (4 - (above.length + beneath.length)) rest := by
    have htop : wordCount above ≤ 2 := by
      rw [hupper]
      cases form <;> simp [Shuffle.top, DupForm.top]
    have hbelow : wordCount beneath ≤ 2 := by
      rw [hlower]
      cases form <;> simp [Shuffle.below, DupForm.below]
    have hcount : 4 = above.length + (beneath.length + (4 - (above.length + beneath.length))) := by
      have := length_le_two_of_wordCount htop
      have := length_le_two_of_wordCount hbelow
      omega
    rw [h.stack, List.append_assoc, hcount, categories_append habove, categories_append hbeneath,
      List.append_assoc, ← hcount]
  have hshape := dupShape?_of_wordCount hupper hlower
    (categories (4 - (above.length + beneath.length)) rest)
  rw [← hfour, ← categories_four] at hshape
  have hcopies : insertCopies above.length beneath.length s.stack =
      upper ++ lower ++ upper ++ rest := by
    have hboth : above.length + beneath.length = (upper ++ lower).length := by
      rw [List.length_append, hlengths, hlengths']
    have htake : (upper ++ lower ++ rest).take upper.length = upper := by
      rw [List.append_assoc, List.take_left]
    rw [insertCopies, h.stack, hboth, List.take_left, List.drop_left, ← hlengths, htake]
  have hget : (get : Sim State) s = .ok (s, s) := rfl
  rw [duplicate, bind_of_ok hget]
  simp only [hshape, hcopies]
  rfl

theorem duplicate_or_malformed (form : DupForm) (s : State) :
    (∃ upper lower rest, (Shuffle.dup form).Divides s.stack upper lower rest) ∨
      ∃ cause, duplicate form s = .error (.malformed cause) := by
  have hget : (get : Sim State) s = .ok (s, s) := rfl
  rw [duplicate, bind_of_ok hget, categories_four]
  cases hshape : dupShape? form (categories 4 s.stack) with
  | none => exact .inr ⟨_, rfl⟩
  | some shape =>
    left
    obtain ⟨above, beneath, more, hcategories, hupper, hlower, -⟩ := wordCount_of_dupShape? hshape
    rw [← List.map_append] at hcategories
    obtain ⟨entries, rest, hstack, hentries⟩ := exists_entries_of_categories hcategories
    rw [List.map_append] at hentries
    obtain ⟨upper, lower, rfl, habove, hbeneath⟩ := List.map_eq_append_iff.mp hentries
    exact ⟨upper, lower, rest, hstack, fills_iff.mpr ⟨above, habove, hupper⟩,
      fills_iff.mpr ⟨beneath, hbeneath, hlower⟩⟩

/-! ## The other shuffles -/

theorem fills_one_iff {entries : List Value} :
    Fills 1 entries ↔ ∃ v, entries = [v] ∧ v.category = some .one := by
  rw [fills_iff]
  constructor
  · rintro ⟨known, hknown, hcount⟩
    obtain rfl := wordCount_eq_one hcount
    simpa [List.map_eq_cons_iff] using hknown
  · rintro ⟨v, rfl, hv⟩
    exact ⟨[.one], by simp [hv], rfl⟩

theorem fills_two_iff {entries : List Value} :
    Fills 2 entries ↔ (∃ v, entries = [v] ∧ v.category = some .two) ∨
      ∃ v w, entries = [v, w] ∧ v.category = some .one ∧ w.category = some .one := by
  rw [fills_iff]
  constructor
  · rintro ⟨known, hknown, hcount⟩
    obtain rfl | rfl := wordCount_eq_two hcount
    · left
      simpa [List.map_eq_cons_iff] using hknown
    · right
      obtain ⟨v, rest, rfl, hv, hrest⟩ := List.map_eq_cons_iff.mp hknown
      obtain ⟨w, last, rfl, hw, hlast⟩ := List.map_eq_cons_iff.mp hrest
      obtain rfl := List.map_eq_nil_iff.mp hlast
      exact ⟨v, w, rfl, hv, hw⟩
  · rintro (⟨v, rfl, hv⟩ | ⟨v, w, rfl, hv, hw⟩)
    · exact ⟨[.two], by simp [hv], rfl⟩
    · exact ⟨[.one, .one], by simp [hv, hw], rfl⟩

theorem pop_cons {s : State} {v : Value} {rest : List Value} (h : s.stack = v :: rest) :
    pop s = .ok (v, { s with stack := rest }) := by
  have hget : (get : Sim State) s = .ok (s, s) := rfl
  rw [pop, bind_of_ok hget, h]
  rfl

theorem popOneWord_cons {s : State} {v : Value} {rest : List Value} (h : s.stack = v :: rest)
    (hv : v.category = some .one) : popOneWord s = .ok (v, { s with stack := rest }) := by
  rw [popOneWord, bind_of_ok (pop_cons h), if_pos hv]
  rfl

theorem popOneWord_or_malformed (s : State) :
    (∃ v rest, s.stack = v :: rest ∧ v.category = some .one) ∨
      ∃ cause, popOneWord s = .error (.malformed cause) := by
  cases hstack : s.stack with
  | nil =>
    right
    refine ⟨.underflow, ?_⟩
    have hget : (get : Sim State) s = .ok (s, s) := rfl
    rw [popOneWord, pop, bind_assoc, bind_of_ok hget, hstack]
    rfl
  | cons v rest =>
    by_cases hv : v.category = some .one
    · exact .inl ⟨v, rest, rfl, hv⟩
    · right
      rw [popOneWord, bind_of_ok (pop_cons hstack), if_neg hv]
      exact ⟨_, rfl⟩

/-- A shuffle moves the blocks that can be cut out of the stack, and changes nothing else. -/
theorem applyEffect_of_divides (position : Nat) {op : Shuffle} {s : State}
    {upper lower rest : List Value} (h : op.Divides s.stack upper lower rest) :
    applyEffect position op.effect s = .ok ((), { s with stack := op.move upper lower ++ rest }) := by
  obtain ⟨hstack, hupper, hlower⟩ := h
  cases op with
  | pop =>
    obtain ⟨v, rfl, hv⟩ := fills_one_iff.mp hupper
    obtain rfl := fills_zero.mp hlower
    rw [Shuffle.effect, applyEffect, bind_of_ok (popOneWord_cons hstack hv)]
    rfl
  | pop2 =>
    obtain rfl := fills_zero.mp hlower
    rcases fills_two_iff.mp hupper with ⟨v, rfl, hv⟩ | ⟨v, w, rfl, hv, hw⟩
    · rw [Shuffle.effect, applyEffect, bind_of_ok (pop_cons hstack)]
      simp only [hv]
      rfl
    · rw [Shuffle.effect, applyEffect, bind_of_ok (pop_cons hstack)]
      simp only [hv]
      rw [bind_of_ok (popOneWord_cons rfl hw)]
      rfl
  | dup form => exact duplicate_of_divides ⟨hstack, hupper, hlower⟩
  | swap =>
    obtain ⟨v, rfl, hv⟩ := fills_one_iff.mp hupper
    obtain ⟨w, rfl, hw⟩ := fills_one_iff.mp hlower
    have hget : (get : Sim State) s = .ok (s, s) := rfl
    rw [Shuffle.effect, applyEffect, swap, bind_of_ok hget, hstack]
    simp only [List.cons_append, List.nil_append, hv, hw, and_self, if_true]
    rfl

/-- Where the blocks cannot be cut out of the stack, a shuffle is malformed. -/
theorem divides_or_malformed (position : Nat) (op : Shuffle) (s : State) :
    (∃ upper lower rest, op.Divides s.stack upper lower rest) ∨
      ∃ cause, applyEffect position op.effect s = .error (.malformed cause) := by
  cases op with
  | pop =>
    rcases popOneWord_or_malformed s with ⟨v, rest, hstack, hv⟩ | ⟨cause, hcause⟩
    · exact .inl ⟨[v], [], rest, hstack, fills_one_iff.mpr ⟨v, rfl, hv⟩, fills_zero.mpr rfl⟩
    · exact .inr ⟨cause, bind_of_error hcause _⟩
  | pop2 =>
    cases hstack : s.stack with
    | nil =>
      right
      refine ⟨.underflow, ?_⟩
      have hget : (get : Sim State) s = .ok (s, s) := rfl
      rw [Shuffle.effect, applyEffect, pop, bind_assoc, bind_of_ok hget, hstack]
      rfl
    | cons v rest =>
      rw [Shuffle.effect, applyEffect, bind_of_ok (pop_cons hstack)]
      rcases hv : v.category with _ | _ | _
      · exact .inr ⟨_, rfl⟩
      · rcases popOneWord_or_malformed { s with stack := rest } with ⟨w, more, hrest, hw⟩ | ⟨cause, hcause⟩
        · refine .inl ⟨[v, w], [], more, ?_, fills_two_iff.mpr (.inr ⟨v, w, rfl, hv, hw⟩),
            fills_zero.mpr rfl⟩
          simpa using hrest
        · exact .inr ⟨cause, bind_of_error hcause _⟩
      · exact .inl ⟨[v], [], rest, rfl, fills_two_iff.mpr (.inl ⟨v, rfl, hv⟩), fills_zero.mpr rfl⟩
  | dup form => exact duplicate_or_malformed form s
  | swap =>
    have hget : (get : Sim State) s = .ok (s, s) := rfl
    rw [Shuffle.effect, applyEffect, swap, bind_of_ok hget]
    rcases s.stack with _ | ⟨v, _ | ⟨w, rest⟩⟩
    · exact .inr ⟨_, rfl⟩
    · exact .inr ⟨_, rfl⟩
    · by_cases hone : v.category = some .one ∧ w.category = some .one
      · exact .inl ⟨[v], [w], rest, rfl, fills_one_iff.mpr ⟨v, rfl, hone.1⟩,
          fills_one_iff.mpr ⟨w, rfl, hone.2⟩⟩
      · simp only [if_neg hone]
        exact .inr ⟨_, rfl⟩

theorem step_shuffle (b : Body) (position : Nat) (op : Shuffle) :
    step b position (.insn op.opcode) = applyEffect position op.effect := by
  simp only [step, op.ofOpcode?_opcode]

end Sim

/-- The shuffles work on words. A shuffle succeeds exactly if its blocks can be cut out of the stack as
whole values. It then moves the blocks, and with them the words, as its definition by words says;
entries below the blocks, the locals and all else stay. Otherwise the body is malformed. -/
theorem shuffles_move_words (b : Body) (position : Nat) (op : Shuffle) (s : State) :
    ((∃ s', Sim.step b position (.insn op.opcode) s = .ok ((), s')) ↔
      ∃ upper lower rest, op.Divides s.stack upper lower rest) ∧
    (∀ upper lower rest, op.Divides s.stack upper lower rest →
      ∃ s', Sim.step b position (.insn op.opcode) s = .ok ((), s') ∧
        s' = { s with stack := op.move upper lower ++ rest } ∧
        wordsOf s'.stack = op.onWords (wordsOf s.stack)) ∧
    ((¬∃ upper lower rest, op.Divides s.stack upper lower rest) →
      ∃ cause, Sim.step b position (.insn op.opcode) s = .error (.malformed cause)) := by
  rw [Sim.step_shuffle]
  refine ⟨⟨?_, ?_⟩, ?_, ?_⟩
  · rintro ⟨s', hs'⟩
    refine (Sim.divides_or_malformed position op s).resolve_right ?_
    rintro ⟨cause, hcause⟩
    rw [hcause] at hs'
    cases hs'
  · rintro ⟨upper, lower, rest, h⟩
    exact ⟨_, Sim.applyEffect_of_divides position h⟩
  · intro upper lower rest h
    exact ⟨_, Sim.applyEffect_of_divides position h, rfl, h.wordsOf_move⟩
  · exact (Sim.divides_or_malformed position op s).resolve_left

end Classmith.Simulation
