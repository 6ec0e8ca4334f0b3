import Mathlib.Tactic.SplitIfs
import Classmith.Json.Reader
import Classmith.Json.Writer
import Classmith.Proofs.Numerals
import Classmith.Proofs.Text

/-!
# Strings and numerals written and read

The reader takes a written string for the text that was quoted, and a written numeral for itself, whatever
follows them.
-/
namespace Classmith.Json

open Number (Numeral)
open Number.Layout (digitsOf)
open Text (utf8)

/-! ## Strings -/

/-- The spelling with the given bytes, and no half of a pair waiting. -/
def Spelling.ofBytes (bytes : List UInt8) : Spelling := ⟨some bytes.toByteArray, none⟩

theorem Spelling.plain_ofBytes (bytes more : List UInt8) :
    (ofBytes bytes).plain more = ofBytes (bytes ++ more) := by
  have hpush : more.foldl ByteArray.push bytes.toByteArray = (bytes ++ more).toByteArray := by
    induction more generalizing bytes with
    | nil => simp
    | cons b rest ih =>
      have hnext : bytes.toByteArray.push b = (bytes ++ [b]).toByteArray := by
        rw [List.toByteArray_append, ByteArray.append_toByteArray_singleton]
      rw [List.foldl_cons, hnext, ih, List.append_assoc, List.singleton_append]
  show (⟨some (more.foldl ByteArray.push bytes.toByteArray), none⟩ : Spelling) = _
  rw [hpush]
  rfl

/-- A byte that neither ends a string nor starts an escape stands for itself. -/
def IsPlain (b : UInt8) : Prop := ¬b < 0x20 ∧ b ≠ 0x22 ∧ b ≠ 0x5C

theorem stringFrom?_plain {bytes : List UInt8} (h : ∀ b ∈ bytes, IsPlain b) (before : List UInt8)
    (rest : Input) :
    stringFrom? (.ofBytes before) (bytes ++ rest) = stringFrom? (.ofBytes (before ++ bytes)) rest := by
  induction bytes generalizing before with
  | nil => rw [List.nil_append, List.append_nil]
  | cons b more ih =>
    obtain ⟨⟨hcontrol, hquote, hslash⟩, hmore⟩ := List.forall_mem_cons.mp h
    have hplain : (decide (b < 0x20) || decide (b = 0x5C)) = false := by simp [hcontrol, hslash]
    rw [List.cons_append, stringFrom?, hplain, if_neg (by simp), Spelling.plain_ofBytes, ih hmore,
      List.append_assoc, List.singleton_append]
    · exact hquote
    · exact fun _ _ _ _ _ hb _ => hslash hb
    · exact fun _ _ hb _ => hslash hb

theorem hexValue?_hexDigit {n : Nat} (h : n < 16) :
    hexValue? (UInt8.ofNat (hexDigit n).toNat) = some n := by
  have hall : ∀ n < 16, hexValue? (UInt8.ofNat (hexDigit n).toNat) = some n := by decide
  exact hall n h

theorem utf8_hexDigit {n : Nat} (h : n < 16) :
    String.utf8EncodeChar (hexDigit n) = [UInt8.ofNat (hexDigit n).toNat] := by
  have hall : ∀ n < 16, (hexDigit n).toNat < 0x80 := by decide
  exact Text.utf8EncodeChar_of_ascii (hall n h)

/-- A character that has no short escape is spelled by its number. -/
theorem stringFrom?_control {c : Char} (h : c.toNat < 0x20) (before : List UInt8) (rest : Input) :
    stringFrom? (.ofBytes before)
        (utf8 ['\\', 'u', '0', '0', hexDigit (c.toNat / 16), hexDigit (c.toNat % 16)] ++ rest) =
      stringFrom? (.ofBytes (before ++ String.utf8EncodeChar c)) rest := by
  have hhigh : c.toNat / 16 < 16 := by omega
  have hlow : c.toNat % 16 < 16 := by omega
  have hbytes : utf8 ['\\', 'u', '0', '0', hexDigit (c.toNat / 16), hexDigit (c.toNat % 16)] =
      [0x5C, 0x75, 0x30, 0x30, UInt8.ofNat (hexDigit (c.toNat / 16)).toNat,
        UInt8.ofNat (hexDigit (c.toNat % 16)).toNat] := by
    simp only [Text.utf8_cons, Text.utf8_nil, utf8_hexDigit hhigh, utf8_hexDigit hlow]
    rfl
  have hunit : unit? 0x30 0x30 (UInt8.ofNat (hexDigit (c.toNat / 16)).toNat)
      (UInt8.ofNat (hexDigit (c.toNat % 16)).toNat) = some c.toNat := by
    have hzero : hexValue? 0x30 = some 0 := by decide
    simp only [unit?, hzero, hexValue?_hexDigit hhigh, hexValue?_hexDigit hlow, bind, Option.bind,
      pure]
    congr 1
    omega
  have hchar : Spelling.utf8 c.toNat = String.utf8EncodeChar c := by
    rw [Spelling.utf8, Text.toList_toUTF8, Char.ofNat_toNat]
    simp [utf8]
  rw [hbytes]
  simp only [List.cons_append, List.nil_append, stringFrom?, hunit]
  rw [Spelling.unit, if_neg (by omega), if_neg (by omega), Spelling.plain_ofBytes, hchar]

/-- Every byte of a character that is not escaped is plain. -/
theorem isPlain_of_mem {c : Char} (hcontrol : ¬c.toNat < 0x20) (hquote : c ≠ '"') (hslash : c ≠ '\\')
    {b : UInt8} (hb : b ∈ String.utf8EncodeChar c) : IsPlain b := by
  refine ⟨?_, ?_, ?_⟩
  · rw [UInt8.lt_iff_toNat_lt, Nat.not_lt]
    show 0x20 ≤ b.toNat
    by_cases hc : c.toNat < 0x80
    · rw [Text.utf8EncodeChar_of_ascii hc, List.mem_singleton] at hb
      rw [hb, UInt8.toNat_ofNat', Nat.mod_eq_of_lt (by omega)]
      omega
    · have hlarge := Text.le_of_mem_utf8EncodeChar (Nat.le_of_not_lt hc) hb
      omega
  · rintro rfl
    exact hquote ((Text.mem_utf8EncodeChar_iff '"' (by decide)).mp hb)
  · rintro rfl
    exact hslash ((Text.mem_utf8EncodeChar_iff '\\' (by decide)).mp hb)

theorem stringFrom?_escapeChar (c : Char) (before : List UInt8) (rest : Input) :
    stringFrom? (.ofBytes before) (utf8 (escapeChar c) ++ rest) =
      stringFrom? (.ofBytes (before ++ String.utf8EncodeChar c)) rest := by
  have hshort : ∀ (e b : UInt8), e ≠ 0x75 → shortEscape? e = some b →
      stringFrom? (.ofBytes before) (0x5C :: e :: rest) =
        stringFrom? (.ofBytes (before ++ [b])) rest := by
    intro e b he hb
    rw [stringFrom?, hb]
    · exact congrArg (stringFrom? · rest) (Spelling.plain_ofBytes before [b])
    · exact fun _ _ _ _ _ hu _ => he hu
  have hof : ∀ n, c.toNat = n → c = Char.ofNat n := by
    intro n hn
    rw [← hn, Char.ofNat_toNat]
  unfold escapeChar
  split_ifs with hquote hslash hback htab hline hform hreturn hcontrol
  · subst c
    exact hshort 0x22 0x22 (by decide) rfl
  · subst c
    exact hshort 0x5C 0x5C (by decide) rfl
  · rw [hof 0x08 hback]
    exact hshort 0x62 0x08 (by decide) rfl
  · subst c
    exact hshort 0x74 0x09 (by decide) rfl
  · subst c
    exact hshort 0x6E 0x0A (by decide) rfl
  · rw [hof 0x0C hform]
    exact hshort 0x66 0x0C (by decide) rfl
  · subst c
    exact hshort 0x72 0x0D (by decide) rfl
  · exact stringFrom?_control hcontrol before rest
  · have hbytes : utf8 [c] = String.utf8EncodeChar c := by simp
    rw [hbytes]
    exact stringFrom?_plain (fun b hb => isPlain_of_mem hcontrol hquote hslash hb) before rest

theorem stringFrom?_escaped (s : List Char) (before : List UInt8) (rest : Input) :
    stringFrom? (.ofBytes before) (utf8 (s.flatMap escapeChar) ++ rest) =
      stringFrom? (.ofBytes (before ++ utf8 s)) rest := by
  induction s generalizing before with
  | nil => rw [List.flatMap_nil, Text.utf8_nil, List.nil_append, List.append_nil]
  | cons c s ih =>
    rw [List.flatMap_cons, Text.utf8_append, List.append_assoc, stringFrom?_escapeChar, ih,
      Text.utf8_cons, List.append_assoc]

/-- The token of a quoted text after its opening quote. -/
theorem stringFrom?_quoted (s : String) (rest : Input) :
    stringFrom? .start (utf8 (s.toList.flatMap escapeChar) ++ 0x22 :: rest) =
      some (some s, rest) := by
  have hstart : Spelling.start = .ofBytes [] := rfl
  have hfinish : (Spelling.ofBytes (utf8 s.toList)).finish = some s := by
    show String.fromUTF8? (utf8 s.toList).toByteArray = some s
    rw [Text.fromUTF8?_utf8, String.ofList_toList]
  rw [hstart, stringFrom?_escaped, List.nil_append, stringFrom?, hfinish]

/-! ## Numerals -/

/-- The byte of a decimal digit. -/
def digitByte (d : Nat) : UInt8 := UInt8.ofNat (0x30 + d)

theorem utf8_digits {ds : List Nat} (h : ∀ d ∈ ds, d < 10) :
    utf8 (ds.map Numeral.digit) = ds.map digitByte := by
  induction ds with
  | nil => rfl
  | cons d rest ih =>
    obtain ⟨hd, hrest⟩ := List.forall_mem_cons.mp h
    have hnat : (Numeral.digit d).toNat = 0x30 + d := Nat.toNat_digitChar_of_lt_ten hd
    rw [List.map_cons, Text.utf8_cons, Text.utf8EncodeChar_of_ascii (by omega), hnat, ih hrest]
    rfl

theorem toNat_digitByte {d : Nat} (h : d < 10) : (digitByte d).toNat = 0x30 + d := by
  rw [digitByte, UInt8.toNat_ofNat', Nat.mod_eq_of_lt (by omega)]

theorem isDigit_digitByte {d : Nat} (h : d < 10) : isDigit (digitByte d) = true := by
  have hall : ∀ d < 10, isDigit (digitByte d) = true := by decide
  exact hall d h

/-- The text goes on with no digit. -/
def NoDigit (s : Input) : Prop := ∀ b ∈ s.head?, isDigit b = false

theorem digits_map {ds : List Nat} (h : ∀ d ∈ ds, d < 10) {rest : Input} (hrest : NoDigit rest) :
    digits (ds.map digitByte ++ rest) = (ds, rest) := by
  induction ds with
  | nil =>
    cases rest with
    | nil => rfl
    | cons b more =>
      rw [List.map_nil, List.nil_append, digits, hrest b rfl]
      rfl
  | cons d more ih =>
    obtain ⟨hd, hmore⟩ := List.forall_mem_cons.mp h
    rw [List.map_cons, List.cons_append, digits, isDigit_digitByte hd, ih hmore, toNat_digitByte hd]
    simp

theorem ofDigits_digitsOf (n : Nat) : ofDigits (digitsOf n) = n := by
  induction n using Number.Layout.digitsOf_induction with
  | few n hn =>
    rw [Number.Layout.digitsOf_of_lt hn]
    simp [ofDigits]
  | more n hn ih =>
    rw [ofDigits] at ih
    rw [Number.Layout.digitsOf_of_le hn, ofDigits, List.foldl_append, ih]
    simp only [List.foldl_cons, List.foldl_nil]
    omega

theorem digits_digitsOf (n : Nat) {rest : Input} (hrest : NoDigit rest) :
    digits (utf8 (Nat.toDigits 10 n) ++ rest) = (digitsOf n, rest) := by
  have hdigits : ∀ d ∈ digitsOf n, d < 10 := fun d hd => Number.Layout.lt_ten_of_mem_digitsOf hd
  rw [Number.Layout.toDigits_eq, utf8_digits hdigits, digits_map hdigits hrest]

theorem whole?_toDigits (n : Nat) {rest : Input} (hrest : NoDigit rest) :
    whole? (utf8 (Nat.toDigits 10 n) ++ rest) = some (n, rest) := by
  rw [whole?, digits_digitsOf n hrest]
  have hvalue := ofDigits_digitsOf n
  split
  · rename_i hempty
    exact absurd (congrArg Prod.fst hempty) (Number.Layout.digitsOf_ne_nil n)
  · rename_i d more tail hzero
    have hds : digitsOf n = 0 :: d :: more := congrArg Prod.fst hzero
    by_cases hn : 0 < n
    · exact absurd (by rw [hds]; rfl) (Number.Layout.head?_digitsOf hn)
    · rw [Nat.eq_zero_of_not_pos hn] at hds
      cases hds
  · rename_i ds tail _ _ hds
    cases hds
    rw [hvalue]

/-- What follows a value in a text of several lines: a comma or a line break. -/
def Ends (s : Input) : Prop := s.head? = some 0x2C ∨ s.head? = some 0x0A

/-- The characters of a fraction, with its point. -/
def pointText (fraction : List Nat) : List Char :=
  if fraction.isEmpty then [] else '.' :: fraction.map Numeral.digit

/-- The characters of an exponent, with its mark and its sign. -/
def powerText : Option Int → List Char
  | none => []
  | some e => 'e' :: (if e < 0 then '-' else '+') :: Nat.toDigits 10 e.natAbs

theorem toList_text (n : Numeral) :
    n.text.toList = (if n.negative then ['-'] else []) ++
      (Nat.toDigits 10 n.whole ++ (pointText n.fraction ++ powerText n.exponent)) := by
  have hsign : (if n.negative then "-" else "").toList = if n.negative then ['-'] else [] := by
    split <;> rfl
  have hpoint : (if n.fraction.isEmpty then "" else "." ++
      String.ofList (n.fraction.map Numeral.digit)).toList = pointText n.fraction := by
    rw [pointText]
    split
    · rfl
    · simp only [String.toList_append, String.toList_ofList]
      rfl
  have hpower : ∀ e : Int, ((if e < 0 then "e-" else "e+") ++ toString e.natAbs).toList =
      powerText (some e) := by
    intro e
    rw [String.toList_append, Nat.toString_eq_repr, Nat.toList_repr, powerText]
    split <;> rfl
  cases hexponent : n.exponent with
  | none =>
    simp only [Numeral.text, hexponent, String.toList_append, hsign, hpoint, Nat.toString_eq_repr,
      Nat.toList_repr, powerText, String.toList_empty, List.append_assoc]
  | some e =>
    have hpower := hpower e
    rw [String.toList_append] at hpower
    simp only [Numeral.text, hexponent, String.toList_append, hsign, hpoint, Nat.toString_eq_repr,
      Nat.toList_repr, List.append_assoc] at hpower ⊢
    rw [hpower]

theorem noDigit_of_ends {s : Input} (h : Ends s) : NoDigit s := by
  intro b hb
  rcases h with h | h <;> rw [h] at hb <;> cases hb <;> decide

theorem exponentDigits?_toDigits (negative : Bool) (n : Nat) {rest : Input} (h : Ends rest) :
    exponentDigits? negative (utf8 (Nat.toDigits 10 n) ++ rest) =
      some (some (if negative then -(n : Int) else n), rest) := by
  rw [exponentDigits?, digits_digitsOf n (noDigit_of_ends h)]
  split
  · rename_i hempty
    exact absurd (congrArg Prod.fst hempty) (Number.Layout.digitsOf_ne_nil n)
  · rename_i ds tail _ hds
    cases hds
    rw [ofDigits_digitsOf]

theorem exponent?_powerText (exponent : Option Int) {rest : Input} (h : Ends rest) :
    exponent? (utf8 (powerText exponent) ++ rest) = some (exponent, rest) := by
  cases exponent with
  | none =>
    cases rest with
    | nil => rfl
    | cons b more =>
      rcases h with h | h <;> cases h <;> rfl
  | some e =>
    by_cases hneg : e < 0
    · have hread := exponentDigits?_toDigits true e.natAbs h
      have hvalue : -(e.natAbs : Int) = e := by omega
      rw [if_pos rfl, hvalue] at hread
      rw [powerText, if_pos hneg]
      exact hread
    · have hread := exponentDigits?_toDigits false e.natAbs h
      have hvalue : (e.natAbs : Int) = e := by omega
      rw [if_neg (by decide), hvalue] at hread
      rw [powerText, if_neg hneg]
      exact hread

theorem noDigit_powerText (exponent : Option Int) {rest : Input} (h : Ends rest) :
    NoDigit (utf8 (powerText exponent) ++ rest) := by
  cases exponent with
  | none => exact noDigit_of_ends h
  | some e =>
    intro b hb
    cases hb
    decide

theorem fraction?_pointText {fraction : List Nat} (hdigits : ∀ d ∈ fraction, d < 10)
    (exponent : Option Int) {rest : Input} (h : Ends rest) :
    fraction? (utf8 (pointText fraction) ++ (utf8 (powerText exponent) ++ rest)) =
      some (fraction, utf8 (powerText exponent) ++ rest) := by
  cases fraction with
  | nil =>
    cases exponent with
    | some e => rfl
    | none =>
      cases rest with
      | nil => rfl
      | cons b more => rcases h with h | h <;> cases h <;> rfl
  | cons d more =>
    have hread := digits_map hdigits (noDigit_powerText exponent h)
    have htext : utf8 (pointText (d :: more)) = 0x2E :: (d :: more).map digitByte := by
      rw [← utf8_digits hdigits]
      rfl
    rw [htext, List.cons_append, fraction?, hread]

theorem noDigit_pointText (fraction : List Nat) (exponent : Option Int) {rest : Input}
    (h : Ends rest) :
    NoDigit (utf8 (pointText fraction) ++ (utf8 (powerText exponent) ++ rest)) := by
  cases fraction with
  | nil => exact noDigit_powerText exponent h
  | cons d more =>
    intro b hb
    cases hb
    decide

/-- The first byte of a written number is a digit. -/
theorem utf8_toDigits (n : Nat) : ∃ d more, d < 10 ∧ utf8 (Nat.toDigits 10 n) = digitByte d :: more := by
  have hdigits : ∀ d ∈ digitsOf n, d < 10 := fun d hd => Number.Layout.lt_ten_of_mem_digitsOf hd
  cases hds : digitsOf n with
  | nil => exact absurd hds (Number.Layout.digitsOf_ne_nil n)
  | cons d more =>
    refine ⟨d, more.map digitByte, hdigits d (by rw [hds]; simp), ?_⟩
    rw [Number.Layout.toDigits_eq, utf8_digits hdigits, hds, List.map_cons]

/-- The bytes that a numeral starts with. -/
def StartsNumeral (b : UInt8) : Prop := b = 0x2D ∨ isDigit b = true

instance (b : UInt8) : Decidable (StartsNumeral b) := inferInstanceAs (Decidable (_ ∨ _))

theorem StartsNumeral.ne {b c : UInt8} (hb : StartsNumeral b) (hc : ¬StartsNumeral c) : b ≠ c := by
  intro hsame
  exact hc (hsame ▸ hb)

theorem StartsNumeral.not_isSpace {b : UInt8} (hb : StartsNumeral b) : isSpace b = false := by
  have hblanks : b ≠ 0x20 ∧ b ≠ 0x0A ∧ b ≠ 0x09 ∧ b ≠ 0x0D :=
    ⟨hb.ne (by decide), hb.ne (by decide), hb.ne (by decide), hb.ne (by decide)⟩
  simp [isSpace, hblanks]

theorem exists_first_text (n : Numeral) :
    ∃ b more, utf8 n.text.toList = b :: more ∧ StartsNumeral b := by
  rw [toList_text, Text.utf8_append, Text.utf8_append]
  cases n.negative with
  | true => exact ⟨0x2D, _, rfl, Or.inl rfl⟩
  | false =>
    obtain ⟨d, more, hd, hfirst⟩ := utf8_toDigits n.whole
    rw [hfirst]
    exact ⟨digitByte d, _, rfl, Or.inr (isDigit_digitByte hd)⟩

/-- A numeral is read as it was written. -/
theorem numeral?_text {n : Numeral} (hdigits : ∀ d ∈ n.fraction, d < 10) {rest : Input}
    (h : Ends rest) : numeral? (utf8 n.text.toList ++ rest) = some (n, rest) := by
  have hwhole := whole?_toDigits n.whole (noDigit_pointText n.fraction n.exponent h)
  have hfraction := fraction?_pointText hdigits n.exponent h
  have hexponent := exponent?_powerText n.exponent h
  have hsplit : utf8 n.text.toList ++ rest = utf8 (if n.negative then ['-'] else []) ++
      (utf8 (Nat.toDigits 10 n.whole) ++
        (utf8 (pointText n.fraction) ++ (utf8 (powerText n.exponent) ++ rest))) := by
    simp only [toList_text, Text.utf8_append, List.append_assoc]
  rw [hsplit]
  cases hnegative : n.negative with
  | true =>
    have hminus : utf8 (if true then ['-'] else []) = [0x2D] := rfl
    rw [hminus, List.singleton_append]
    simp only [numeral?, hwhole, hfraction, hexponent, bind, Option.bind, pure, ← hnegative]
  | false =>
    have hnone : utf8 (if false then ['-'] else []) = [] := rfl
    rw [hnone, List.nil_append]
    obtain ⟨d, more, hd, hfirst⟩ := utf8_toDigits n.whole
    rw [hfirst, List.cons_append] at hwhole ⊢
    have hplus : digitByte d ≠ 0x2D := by
      have hall : ∀ d < 10, digitByte d ≠ 0x2D := by decide
      exact hall d hd
    unfold numeral?
    split
    rename_i negative s hsign
    split at hsign
    · rename_i hminus
      exact absurd (List.cons.inj hminus).1 hplus
    · cases hsign
      simp only [hwhole, hfraction, hexponent, bind, Option.bind, pure, ← hnegative]

end Classmith.Json
