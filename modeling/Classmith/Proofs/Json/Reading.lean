import Classmith.Proofs.Json.Decoding
import Classmith.Proofs.Json.Tokens

/-!
# Trees written and read

A tree without defects, written over several lines, is read as it was, as long as it is not nested deeper
than the reader's limit.
-/
namespace Classmith.Json

open Number (Numeral)
open Text (utf8)

/-! ## The text of a tree -/

/-- What stands before a member or an item. -/
def separator (first : Bool) (level : Nat) : List Char :=
  (if first then [] else [',']) ++ (newline level).toList

/-- The end of a container, on a line of its own unless the container is empty. -/
def closing (level : Nat) (empty : Bool) (mark : Char) : List Char :=
  (if empty then [] else (newline level).toList) ++ [mark]

mutual

/-- The characters of a value that is written over several lines at a level. -/
def layout (level : Nat) : Json → List Char
  | .object members =>
    '\x7b' :: (layoutMembers (level + 1) true members ++ closing level members.isEmpty '\x7d')
  | .array items => '[' :: (layoutItems (level + 1) true items ++ closing level items.isEmpty ']')
  | other => (scalar other).toList

def layoutMembers (level : Nat) (first : Bool) : List (Option String × Json) → List Char
  | [] => []
  | (key, value) :: rest =>
    separator first level ++ ((quote (key.getD "")).toList ++ (':' :: ' ' :: (layout level value ++
      layoutMembers level false rest)))

def layoutItems (level : Nat) (first : Bool) : List Json → List Char
  | [] => []
  | item :: rest => separator first level ++ (layout level item ++ layoutItems level false rest)

end

mutual

theorem toList_appendPretty (out : String) (level : Nat) : (j : Json) →
    (appendPretty out level j).toList = out.toList ++ layout level j
  | .object [] => by simp [appendPretty, layout, layoutMembers, closing]
  | .object (m :: members) => by
    have h := toList_appendPrettyMembers (out ++ "\x7b") (level + 1) true (m :: members)
    simp [appendPretty, layout, closing, h]
  | .array [] => by simp [appendPretty, layout, layoutItems, closing]
  | .array (item :: items) => by
    have h := toList_appendPrettyItems (out ++ "[") (level + 1) true (item :: items)
    simp [appendPretty, layout, closing, h]
  | .null => String.toList_append
  | .bool _ => String.toList_append
  | .number _ => String.toList_append
  | .string _ => String.toList_append
  | .unreadable => String.toList_append
  | .deep _ => String.toList_append
  | .cut => String.toList_append
termination_by structural j => j

theorem toList_appendPrettyMembers (out : String) (level : Nat) (first : Bool) :
    (members : List (Option String × Json)) →
    (appendPrettyMembers out level first members).toList =
      out.toList ++ layoutMembers level first members
  | [] => by simp [appendPrettyMembers, layoutMembers]
  | (key, value) :: rest => by
    rw [appendPrettyMembers, toList_appendPrettyMembers _ level false rest,
      toList_appendPretty _ level value]
    cases first <;> simp [layoutMembers, separator]
termination_by structural members => members

theorem toList_appendPrettyItems (out : String) (level : Nat) (first : Bool) :
    (items : List Json) →
    (appendPrettyItems out level first items).toList = out.toList ++ layoutItems level first items
  | [] => by simp [appendPrettyItems, layoutItems]
  | item :: rest => by
    rw [appendPrettyItems, toList_appendPrettyItems _ level false rest,
      toList_appendPretty _ level item]
    cases first <;> simp [layoutItems, separator]
termination_by structural items => items

end

/-! ## Blanks -/

theorem skipSpace_append {blanks : List UInt8} (h : ∀ b ∈ blanks, isSpace b) (s : Input) :
    skipSpace (blanks ++ s) = skipSpace s := by
  induction blanks with
  | nil => rfl
  | cons b rest ih =>
    obtain ⟨hb, hrest⟩ := List.forall_mem_cons.mp h
    rw [skipSpace, List.cons_append, List.dropWhile_cons_of_pos hb]
    exact ih hrest

theorem skipSpace_cons {b : UInt8} (h : isSpace b = false) (s : Input) :
    skipSpace (b :: s) = b :: s :=
  List.dropWhile_cons_of_neg (by simp [h])

theorem isSpace_newline (level : Nat) : ∀ b ∈ utf8 (newline level).toList, isSpace b := by
  have hblanks : ∀ c ∈ (newline level).toList, c = '\n' ∨ c = ' ' := by
    intro c hc
    rw [newline, String.toList_ofList] at hc
    rcases List.mem_cons.mp hc with rfl | hc
    · exact Or.inl rfl
    · exact Or.inr (List.eq_of_mem_replicate hc)
  intro b hb
  obtain ⟨c, hc, hb⟩ := List.mem_flatMap.mp hb
  rcases hblanks c hc with rfl | rfl <;> rw [List.mem_singleton.mp hb] <;> decide

theorem value_append {blanks : List UInt8} (h : ∀ b ∈ blanks, isSpace b) (max fuel level : Nat)
    (s : Input) : value max fuel level (blanks ++ s) = value max fuel level s := by
  cases fuel with
  | zero => rfl
  | succ fuel => rw [value, value, skipSpace_append h]

/-- The first byte of a written value. -/
theorem exists_first {j : Json} (h : j.Sound) (level : Nat) :
    ∃ b more, utf8 (layout level j) = b :: more ∧ isSpace b = false ∧ b ≠ 0x5D := by
  cases h with
  | null => exact ⟨_, _, rfl, by decide, by decide⟩
  | bool b => cases b <;> exact ⟨_, _, rfl, by decide, by decide⟩
  | string s =>
    rw [layout, scalar, quote, String.toList_append, String.toList_append]
    · exact ⟨0x22, _, rfl, by decide, by decide⟩
    all_goals exact nofun
  | number range digits =>
    obtain ⟨b, more, htext, hb⟩ := exists_first_text _
    exact ⟨b, more, htext, hb.not_isSpace, hb.ne (by decide)⟩
  | object keys values => exact ⟨0x7B, _, rfl, by decide, by decide⟩
  | array items => exact ⟨0x5B, _, rfl, by decide, by decide⟩

/-! ## Values -/

/-- Reading the text of a value inside so many containers gives the value, whatever ends it. -/
def ReadsBack (max : Nat) (j : Json) : Prop :=
  ∀ (level fuel : Nat) (rest : Input), level + j.depth ≤ max → (layout level j).length < fuel →
    Ends rest → value max fuel level (utf8 (layout level j) ++ rest) = (j, some rest)

variable {max : Nat}

theorem afterBytes?_append (word rest : Input) : afterBytes? word (word ++ rest) = some rest := by
  induction word with
  | nil => cases rest <;> rfl
  | cons b word ih =>
    rw [List.cons_append, afterBytes?, if_pos rfl]
    exact ih

theorem constant_append (word : String) (j : Json) (rest : Input) :
    constant word j (utf8 word.toList ++ rest) = (j, some rest) := by
  rw [constant, afterWord?, Text.toList_toUTF8, afterBytes?_append]

theorem value_number {b : UInt8} {s rest : Input} {n : Numeral} (hb : StartsNumeral b)
    (h : numeral? (b :: s) = some (n, rest)) (fuel level : Nat) :
    value max (fuel + 1) level (b :: s) = (.number n, some rest) := by
  rw [value, skipSpace_cons hb.not_isSpace]
  split
  case h_7 => rw [h]
  -- the other cases are those of another first byte
  all_goals
    rename_i hs
    exact absurd (List.cons.inj hs).1 (hb.ne (by decide))

theorem value_string (s : String) (fuel level : Nat) (rest : Input) :
    value max (fuel + 1) level (utf8 (quote s).toList ++ rest) = (.string s, some rest) := by
  have htext : utf8 (quote s).toList ++ rest =
      0x22 :: (utf8 (s.toList.flatMap escapeChar) ++ 0x22 :: rest) := by
    simp only [quote, String.toList_append, String.toList_ofList, Text.utf8_append, List.append_assoc]
    rfl
  rw [htext, value, skipSpace_cons (by decide)]
  simp only [stringFrom?_quoted]

theorem readsBack_scalar {j : Json} (h : ∀ fuel level rest, Ends rest →
    value max (fuel + 1) level (utf8 (scalar j).toList ++ rest) = (j, some rest))
    (htext : ∀ level, layout level j = (scalar j).toList) : ReadsBack max j := by
  intro level fuel rest _ hfuel hrest
  cases fuel with
  | zero => omega
  | succ fuel =>
    rw [htext]
    exact h fuel level rest hrest

theorem readsBack_null : ReadsBack max .null := by
  refine readsBack_scalar (fun fuel level rest _ => ?_) fun _ => rfl
  exact constant_append "ull" .null rest

theorem readsBack_bool (b : Bool) : ReadsBack max (.bool b) := by
  refine readsBack_scalar (fun fuel level rest _ => ?_) fun _ => rfl
  cases b with
  | true => exact constant_append "rue" (.bool true) rest
  | false => exact constant_append "alse" (.bool false) rest

theorem readsBack_string (s : String) : ReadsBack max (.string s) := by
  refine readsBack_scalar (fun fuel level rest _ => ?_) fun _ => rfl
  rw [scalar]
  exact value_string s fuel level rest

theorem readsBack_number {n : Numeral} (hdigits : ∀ d ∈ n.fraction, d < 10) :
    ReadsBack max (.number n) := by
  refine readsBack_scalar (fun fuel level rest hrest => ?_) fun _ => rfl
  obtain ⟨b, more, htext, hb⟩ := exists_first_text n
  have hread := numeral?_text hdigits hrest
  rw [scalar]
  rw [htext, List.cons_append] at hread ⊢
  exact value_number hb hread fuel level

/-! ## Containers -/

theorem toList_newline (level : Nat) :
    (newline level).toList = '\n' :: List.replicate (2 * level) ' ' :=
  String.toList_ofList

theorem length_separator_pos (first : Bool) (level : Nat) : 0 < (separator first level).length := by
  rw [separator, toList_newline, List.length_append, List.length_cons]
  omega

theorem isSpace_closing (level : Nat) (empty : Bool) :
    ∀ b ∈ utf8 (if empty then [] else (newline level).toList), isSpace b := by
  cases empty with
  | true => simp
  | false => exact isSpace_newline level

theorem items_close {blanks : List UInt8} (h : ∀ b ∈ blanks, isSpace b) (fuel level : Nat)
    (first : Bool) (rest : Input) :
    items max (fuel + 1) level first (blanks ++ 0x5D :: rest) = ([], some rest) := by
  rw [items, skipSpace_append h, skipSpace_cons (by decide)]
  rfl

theorem items_first {blanks : List UInt8} (h : ∀ b ∈ blanks, isSpace b) {b : UInt8} {s next : Input}
    {fuel level : Nat} {item : Json} {more : List Json} {last : Option Input}
    (hb : isSpace b = false) (hclose : b ≠ 0x5D)
    (hitem : value max fuel level (b :: s) = (item, some next))
    (hmore : items max fuel level false next = (more, last)) :
    items max (fuel + 1) level true (blanks ++ b :: s) = (item :: more, last) := by
  rw [items, skipSpace_append h, skipSpace_cons hb]
  simp only [Bool.not_true, Bool.false_and, Bool.false_eq_true, if_false, if_true, hitem, hmore]

theorem items_next {s next : Input} {fuel level : Nat} {item : Json} {more : List Json}
    {last : Option Input} (hitem : value max fuel level s = (item, some next))
    (hmore : items max fuel level false next = (more, last)) :
    items max (fuel + 1) level false (0x2C :: s) = (item :: more, last) := by
  rw [items, skipSpace_cons (by decide)]
  simp [hitem, hmore]

theorem ends_items (level outer : Nat) (all : List Json) (rest : Input) :
    Ends (utf8 (layoutItems level false all ++ closing outer false ']') ++ rest) := by
  cases all with
  | nil =>
    rw [layoutItems, List.nil_append, closing, toList_newline]
    exact Or.inr rfl
  | cons item more => exact Or.inl rfl

theorem items_layout {all : List Json} (hsound : ∀ i ∈ all, i.Sound)
    (hread : ∀ i ∈ all, ReadsBack max i) {fuel level : Nat}
    (hdepth : ∀ i ∈ all, level + i.depth ≤ max) {first empty : Bool} (hempty : all ≠ [] → empty = false)
    (outer : Nat) (hfuel : (layoutItems level first all ++ closing outer empty ']').length < fuel)
    (rest : Input) :
    items max fuel level first (utf8 (layoutItems level first all ++ closing outer empty ']') ++ rest) =
      (all, some rest) := by
  induction all generalizing first empty fuel with
  | nil =>
    cases fuel with
    | zero => omega
    | succ fuel =>
      rw [layoutItems, List.nil_append, closing, Text.utf8_append, List.append_assoc]
      exact items_close (isSpace_closing outer empty) fuel level first rest
  | cons item more ih =>
    obtain ⟨hitem, hsound⟩ := List.forall_mem_cons.mp hsound
    obtain ⟨hreadItem, hread⟩ := List.forall_mem_cons.mp hread
    obtain ⟨hdepthItem, hdepth⟩ := List.forall_mem_cons.mp hdepth
    rw [hempty (List.cons_ne_nil item more)] at hfuel ⊢
    have hseparator := length_separator_pos first level
    cases fuel with
    | zero => omega
    | succ fuel =>
      rw [layoutItems, List.append_assoc, List.append_assoc, List.length_append, List.length_append]
        at hfuel
      -- the next separator or the closing line ends the item
      have hvalue := hreadItem level fuel _ hdepthItem (by omega) (ends_items level outer more rest)
      have hmore : items max fuel level false
          (utf8 (layoutItems level false more ++ closing outer false ']') ++ rest) =
            (more, some rest) :=
        ih hsound hread hdepth (fun _ => rfl) (by omega)
      rw [layoutItems, List.append_assoc, List.append_assoc, Text.utf8_append, List.append_assoc,
        Text.utf8_append, List.append_assoc]
      cases first with
      | true =>
        obtain ⟨b, text, hfirst, hb, hclose⟩ := exists_first hitem level
        rw [hfirst, List.cons_append] at hvalue ⊢
        exact items_first (isSpace_newline level) hb hclose hvalue hmore
      | false =>
        have hindented := value_append (isSpace_newline level) max fuel level
        exact items_next ((hindented _).trans hvalue) hmore

theorem members_close {blanks : List UInt8} (h : ∀ b ∈ blanks, isSpace b) (fuel level : Nat)
    (first : Bool) (rest : Input) :
    members max (fuel + 1) level first (blanks ++ 0x7D :: rest) = ([], some rest) := by
  rw [members, skipSpace_append h, skipSpace_cons (by decide)]
  rfl

/-- A member after what separates it from the one before. -/
theorem members_member {first : Bool} {level : Nat} {key : String} {s next : Input} {fuel : Nat}
    {item : Json} {more : List (Option String × Json)} {last : Option Input}
    (hitem : value max fuel level (0x20 :: s) = (item, some next))
    (hmore : members max fuel level false next = (more, last)) :
    members max (fuel + 1) level first
        (utf8 (separator first level) ++ (utf8 (quote key).toList ++ 0x3A :: 0x20 :: s)) =
      ((some key, item) :: more, last) := by
  have htext : utf8 (quote key).toList ++ 0x3A :: 0x20 :: s =
      0x22 :: (utf8 (key.toList.flatMap escapeChar) ++ 0x22 :: 0x3A :: 0x20 :: s) := by
    simp only [quote, String.toList_append, String.toList_ofList, Text.utf8_append, List.append_assoc]
    rfl
  have hkey := stringFrom?_quoted key (0x3A :: 0x20 :: s)
  rw [htext]
  generalize utf8 (key.toList.flatMap escapeChar) ++ 0x22 :: 0x3A :: 0x20 :: s = token at hkey
  have hcolon : skipSpace (0x3A :: 0x20 :: s) = 0x3A :: 0x20 :: s := skipSpace_cons (by decide) _
  have hquote : skipSpace (0x22 :: token) = 0x22 :: token := skipSpace_cons (by decide) _
  have hindented := (skipSpace_append (isSpace_newline level) (0x22 :: token)).trans hquote
  rw [members]
  cases first with
  | true =>
    have hspace : skipSpace (utf8 (separator true level) ++ 0x22 :: token) = 0x22 :: token := hindented
    rw [hspace]
    simp [hquote, hkey, hcolon, hitem, hmore]
  | false =>
    have hspace : skipSpace (utf8 (separator false level) ++ 0x22 :: token) =
        0x2C :: (utf8 (newline level).toList ++ 0x22 :: token) := skipSpace_cons (by decide) _
    rw [hspace]
    simp [hindented, hkey, hcolon, hitem, hmore]

theorem ends_members (level outer : Nat) (all : List (Option String × Json)) (rest : Input) :
    Ends (utf8 (layoutMembers level false all ++ closing outer false '\x7d') ++ rest) := by
  cases all with
  | nil =>
    rw [layoutMembers, List.nil_append, closing, toList_newline]
    exact Or.inr rfl
  | cons m more => exact Or.inl rfl

theorem members_layout {all : List (Option String × Json)} (hkeys : ∀ m ∈ all, m.1.isSome)
    (hread : ∀ m ∈ all, ReadsBack max m.2) {fuel level : Nat}
    (hdepth : ∀ m ∈ all, level + m.2.depth ≤ max) {first empty : Bool}
    (hempty : all ≠ [] → empty = false) (outer : Nat)
    (hfuel : (layoutMembers level first all ++ closing outer empty '\x7d').length < fuel)
    (rest : Input) :
    members max fuel level first
        (utf8 (layoutMembers level first all ++ closing outer empty '\x7d') ++ rest) =
      (all, some rest) := by
  induction all generalizing first empty fuel with
  | nil =>
    cases fuel with
    | zero => omega
    | succ fuel =>
      rw [layoutMembers, List.nil_append, closing, Text.utf8_append, List.append_assoc]
      exact members_close (isSpace_closing outer empty) fuel level first rest
  | cons m more ih =>
    obtain ⟨key, item⟩ := m
    obtain ⟨hkey, hmoreKeys⟩ := List.forall_mem_cons.mp hkeys
    have hreadItem : ReadsBack max item := (List.forall_mem_cons.mp hread).1
    have hdepthItem : level + item.depth ≤ max := (List.forall_mem_cons.mp hdepth).1
    have hseparator := length_separator_pos first level
    rw [hempty (List.cons_ne_nil _ more)] at hfuel ⊢
    cases key with
    | none => cases hkey
    | some key =>
      cases fuel with
      | zero => omega
      | succ fuel =>
        simp only [layoutMembers, List.append_assoc, List.cons_append, List.length_append,
          List.length_cons] at hfuel
        have hvalue := hreadItem level fuel _ hdepthItem (by omega)
          (ends_members level outer more rest)
        have hmore : members max fuel level false
            (utf8 (layoutMembers level false more ++ closing outer false '\x7d') ++ rest) =
              (more, some rest) :=
          ih hmoreKeys (List.forall_mem_cons.mp hread).2 (List.forall_mem_cons.mp hdepth).2
            (fun _ => rfl) (by rw [List.length_append]; omega)
        have hblank : ∀ b ∈ ([0x20] : List UInt8), isSpace b := by
          intro b hb
          rw [List.mem_singleton.mp hb]
          decide
        have hspaced := (value_append hblank max fuel level _).trans hvalue
        have htext : utf8 (layoutMembers level first ((some key, item) :: more) ++
            closing outer false '\x7d') ++ rest =
              utf8 (separator first level) ++ (utf8 (quote key).toList ++ 0x3A :: 0x20 ::
                (utf8 (layout level item) ++
                  (utf8 (layoutMembers level false more ++ closing outer false '\x7d') ++ rest))) := by
          simp only [layoutMembers, Text.utf8_append, Text.utf8_cons, List.append_assoc]
          rfl
        rw [htext]
        exact members_member hspaced hmore

theorem readsBack_array {all : List Json} (hsound : ∀ i ∈ all, i.Sound)
    (hread : ∀ i ∈ all, ReadsBack max i) : ReadsBack max (.array all) := by
  intro level fuel rest hdepth hfuel hrest
  have hlevel : ¬max < level + 1 := by
    rw [depth] at hdepth
    omega
  have hitems : ∀ i ∈ all, level + 1 + i.depth ≤ max := by
    intro i hi
    have hlt := depth_lt_of_mem_items hi
    omega
  cases fuel with
  | zero => omega
  | succ fuel =>
    rw [layout, List.length_cons] at hfuel
    have hempty : all ≠ [] → all.isEmpty = false := by simp
    have hread := items_layout hsound hread hitems hempty level (Nat.lt_of_succ_lt_succ hfuel) rest
    have htext : utf8 (layout level (.array all)) ++ rest =
        0x5B :: (utf8 (layoutItems (level + 1) true all ++ closing level all.isEmpty ']') ++ rest) := rfl
    rw [htext, value, skipSpace_cons (by decide)]
    simp only [hread, closeItems, limit, if_neg hlevel]

theorem readsBack_object {all : List (Option String × Json)} (hkeys : ∀ m ∈ all, m.1.isSome)
    (hread : ∀ m ∈ all, ReadsBack max m.2) : ReadsBack max (.object all) := by
  intro level fuel rest hdepth hfuel hrest
  have hlevel : ¬max < level + 1 := by
    rw [depth] at hdepth
    omega
  have hmembers : ∀ m ∈ all, level + 1 + m.2.depth ≤ max := by
    intro m hm
    have hlt := depth_lt_of_mem_members hm
    omega
  cases fuel with
  | zero => omega
  | succ fuel =>
    rw [layout, List.length_cons] at hfuel
    have hempty : all ≠ [] → all.isEmpty = false := by simp
    have hread := members_layout hkeys hread hmembers hempty level (Nat.lt_of_succ_lt_succ hfuel) rest
    have htext : utf8 (layout level (.object all)) ++ rest = 0x7B ::
        (utf8 (layoutMembers (level + 1) true all ++ closing level all.isEmpty '\x7d') ++ rest) := rfl
    rw [htext, value, skipSpace_cons (by decide)]
    simp only [hread, closeMembers, limit, if_neg hlevel]

theorem Sound.readsBack {j : Json} (h : j.Sound) : ReadsBack max j := by
  induction h with
  | null => exact readsBack_null
  | bool b => exact readsBack_bool b
  | string s => exact readsBack_string s
  | number _ digits => exact readsBack_number digits
  | object keys _ ih => exact readsBack_object keys ih
  | array items ih => exact readsBack_array items ih

theorem length_le_utf8 (s : List Char) : s.length ≤ (utf8 s).length := by
  induction s with
  | nil => exact Nat.le_refl 0
  | cons c s ih =>
    have hpos := c.utf8Size_pos
    rw [Text.utf8_cons, List.length_append, String.length_utf8EncodeChar, List.length_cons]
    omega

/-- A written tree is read as it was. -/
theorem read_pretty {j : Json} (h : j.Sound) (hdepth : j.depth ≤ max) :
    read max (j.pretty ++ "\n").toUTF8 = j := by
  have htext : (j.pretty ++ "\n").toList = layout 0 j ++ ['\n'] := by
    rw [String.toList_append, pretty, toList_appendPretty]
    rfl
  have hbytes : (j.pretty ++ "\n").toUTF8.toList = utf8 (layout 0 j) ++ [0x0A] := by
    rw [Text.toList_toUTF8, htext, Text.utf8_append]
    rfl
  have hsize : (layout 0 j).length < 2 * (j.pretty ++ "\n").toUTF8.size + 2 := by
    have hlength := length_le_utf8 (layout 0 j)
    rw [Text.toUTF8_eq, List.size_toByteArray, htext, Text.utf8_append, List.length_append]
    omega
  have hread := h.readsBack 0 _ [0x0A] ((Nat.zero_add j.depth).symm ▸ hdepth) hsize (Or.inr rfl)
  rw [read, hbytes, hread]

end Classmith.Json
