import Classmith.Text.Blank
import Classmith.Text.Lines

/-!
# Texts as bytes

The bytes of a text, character by character, and what cutting it into lines and words gives. A byte of an
ASCII character is in no other character, so a text may be cut at bytes as well as at characters.
-/
namespace Classmith.Text

/-! ## Bytes -/

/-- The bytes of a text in UTF-8. -/
def utf8 (s : List Char) : List UInt8 := s.flatMap String.utf8EncodeChar

@[simp] theorem utf8_nil : utf8 [] = [] := rfl

@[simp] theorem utf8_cons (c : Char) (s : List Char) :
    utf8 (c :: s) = String.utf8EncodeChar c ++ utf8 s := rfl

@[simp] theorem utf8_append (s t : List Char) : utf8 (s ++ t) = utf8 s ++ utf8 t :=
  List.flatMap_append

theorem toList_loop (bytes : ByteArray) (i : Nat) (read : List UInt8) :
    ByteArray.toList.loop bytes i read = read.reverse ++ bytes.data.toList.drop i := by
  induction h : bytes.size - i generalizing i read with
  | zero =>
    have hend : ¬i < bytes.size := by omega
    have hdrop : bytes.data.toList.drop i = [] :=
      List.drop_eq_nil_of_le (Nat.le_of_sub_eq_zero h)
    rw [ByteArray.toList.loop, if_neg hend, hdrop, List.append_nil]
  | succ n ih =>
    have hmid : i < bytes.size := Nat.lt_of_sub_eq_succ h
    have hin : i < bytes.data.toList.length := hmid
    have hget : bytes.get! i = bytes.data.toList[i] := getElem!_pos bytes.data i hin
    have hmore : bytes.size - (i + 1) = n := by omega
    rw [ByteArray.toList.loop, if_pos hmid, ih (i + 1) _ hmore, List.drop_eq_getElem_cons hin, hget,
      List.reverse_cons, List.append_assoc, List.singleton_append]

theorem toList_eq (bytes : ByteArray) : bytes.toList = bytes.data.toList := toList_loop bytes 0 []

theorem toUTF8_eq (s : String) : s.toUTF8 = (utf8 s.toList).toByteArray :=
  String.utf8Encode_toList.symm

theorem toList_toUTF8 (s : String) : s.toUTF8.toList = utf8 s.toList := by
  rw [toList_eq, toUTF8_eq, List.toList_data_toByteArray]

theorem fromUTF8?_utf8 (s : List Char) :
    String.fromUTF8? (utf8 s).toByteArray = some (String.ofList s) := by
  have hvalid : (utf8 s).toByteArray.IsValidUTF8 := ⟨s, rfl⟩
  rw [String.fromUTF8?, dif_pos hvalid]
  congr 1

theorem decode_utf8 (s : List Char) : decode (utf8 s) = .ok (String.ofList s) := by
  have hbytes : (⟨(utf8 s).toArray⟩ : ByteArray) = (utf8 s).toByteArray := by
    apply ByteArray.ext
    apply Array.toList_inj.mp
    rw [List.toList_data_toByteArray]
  rw [decode, hbytes, fromUTF8?_utf8]

theorem utf8EncodeChar_of_ascii {c : Char} (h : c.toNat < 0x80) :
    String.utf8EncodeChar c = [UInt8.ofNat c.toNat] := by
  have hsmall : c.val.toNat ≤ 0x7f := Nat.le_of_lt_succ h
  simp only [String.utf8EncodeChar, hsmall, if_true]
  rfl

theorem le_of_mem_utf8EncodeChar {c : Char} (h : 0x80 ≤ c.toNat) {b : UInt8}
    (hb : b ∈ String.utf8EncodeChar c) : 0x80 ≤ b.toNat := by
  have hlarge : ¬c.val.toNat ≤ 0x7f := Nat.not_le_of_lt h
  -- every byte of such a character is a remainder with its topmost bits set
  have hset : ∀ n, 0x80 ≤ n → n < 0x100 → 0x80 ≤ (UInt8.ofNat n).toNat := by
    intro n hlow hhigh
    rw [UInt8.toNat_ofNat', Nat.mod_eq_of_lt hhigh]
    exact hlow
  simp only [String.utf8EncodeChar, hlarge, if_false] at hb
  split at hb
  · simp only [List.mem_cons, List.not_mem_nil, or_false] at hb
    rcases hb with rfl | rfl <;> exact hset _ (by omega) (by omega)
  · split at hb <;> simp only [List.mem_cons, List.not_mem_nil, or_false] at hb
    · rcases hb with rfl | rfl | rfl <;> exact hset _ (by omega) (by omega)
    · rcases hb with rfl | rfl | rfl | rfl <;> exact hset _ (by omega) (by omega)

/-- The byte of an ASCII character is a byte of no other. -/
theorem mem_utf8EncodeChar_iff (mark : Char) {c : Char} (h : mark.toNat < 0x80) :
    UInt8.ofNat mark.toNat ∈ String.utf8EncodeChar c ↔ c = mark := by
  have hbyte : (UInt8.ofNat mark.toNat).toNat = mark.toNat := by
    rw [UInt8.toNat_ofNat', Nat.mod_eq_of_lt (by omega)]
  constructor
  · intro hmem
    by_cases hc : c.toNat < 0x80
    · rw [utf8EncodeChar_of_ascii hc, List.mem_singleton] at hmem
      have hsame : mark.toNat = c.toNat := by
        have hnat := congrArg UInt8.toNat hmem
        rw [hbyte, UInt8.toNat_ofNat', Nat.mod_eq_of_lt (by omega)] at hnat
        exact hnat
      exact Char.toNat_inj.mp hsame.symm
    · have hlarge := le_of_mem_utf8EncodeChar (Nat.le_of_not_lt hc) hmem
      omega
  · rintro rfl
    rw [utf8EncodeChar_of_ascii h]
    exact List.mem_singleton.mpr rfl

/-! ## Lines -/

/-- Removes a carriage return at the end of a line; the line is given backwards. -/
def dropReturn : List Char → List Char
  | '\r' :: rest => rest
  | line => line

/-- The lines of a text; `current` is the line at hand, backwards. -/
def charLines (current : List Char) : List Char → List (List Char)
  | [] => if current.isEmpty then [] else [current.reverse]
  | c :: rest =>
    if c = '\n' then (dropReturn current).reverse :: charLines [] rest
    else charLines (c :: current) rest

theorem byteLines_append {bytes : List UInt8} (h : 0x0A ∉ bytes) (current rest : List UInt8) :
    byteLines current (bytes ++ rest) = byteLines (bytes.reverse ++ current) rest := by
  induction bytes generalizing current with
  | nil => rfl
  | cons b bytes ih =>
    have hb : b ≠ 0x0A := fun heq => h (heq ▸ List.mem_cons_self)
    have hrest : 0x0A ∉ bytes := fun hmem => h (List.mem_cons_of_mem b hmem)
    simp only [List.cons_append, byteLines, if_neg hb, ih hrest, List.reverse_cons,
      List.append_assoc, List.nil_append]

theorem withoutReturn_utf8 (current : List Char) :
    withoutReturn (utf8 current.reverse).reverse = (utf8 (dropReturn current).reverse).reverse := by
  cases current with
  | nil => rfl
  | cons c rest =>
    by_cases hc : c = '\r'
    · subst hc
      have hbytes : (utf8 ('\r' :: rest).reverse).reverse = 0x0D :: (utf8 rest.reverse).reverse := by
        simp [String.utf8EncodeChar]
      rw [hbytes]
      rfl
    · have hkept : dropReturn (c :: rest) = c :: rest := by
        unfold dropReturn
        split
        · rename_i heq
          exact absurd (List.cons.inj heq).1 hc
        · rfl
      rw [hkept]
      -- the last byte of another character is no carriage return
      unfold withoutReturn
      split
      · rename_i bytes heq
        have hlast : (utf8 (c :: rest).reverse).getLast? = some 0x0D := by
          rw [← List.head?_reverse, heq]
          rfl
        have hmem : (0x0D : UInt8) ∈ String.utf8EncodeChar c := by
          simp only [List.reverse_cons, utf8_append, utf8_cons, utf8_nil, List.append_nil,
            List.getLast?_append, Option.or_eq_some_iff] at hlast
          rcases hlast with hlast | ⟨hnone, -⟩
          · exact List.mem_of_getLast? hlast
          · simp at hnone
        exact absurd ((mem_utf8EncodeChar_iff '\r' (by decide)).mp hmem) hc
      · rfl

theorem byteLines_utf8 (current s : List Char) :
    byteLines (utf8 current.reverse).reverse (utf8 s) = (charLines current s).map utf8 := by
  induction s generalizing current with
  | nil =>
    cases current with
    | nil => rfl
    | cons c rest =>
      simp [byteLines, charLines]
  | cons c s ih =>
    by_cases hc : c = '\n'
    · subst hc
      have hbytes : utf8 ('\n' :: s) = 0x0A :: utf8 s := rfl
      rw [hbytes, byteLines, if_pos rfl, charLines, if_pos rfl, List.map_cons, withoutReturn_utf8,
        List.reverse_reverse]
      exact congrArg _ (ih [])
    · have hfree : 0x0A ∉ String.utf8EncodeChar c :=
        fun hmem => hc ((mem_utf8EncodeChar_iff '\n' (by decide)).mp hmem)
      have hnext : (String.utf8EncodeChar c).reverse ++ (utf8 current.reverse).reverse =
          (utf8 (c :: current).reverse).reverse := by simp
      rw [utf8_cons, byteLines_append hfree, hnext, ih, charLines, if_neg hc]

/-- The lines of the bytes of a text are the lines of the text. -/
theorem lines_toUTF8 (s : String) :
    lines s.toUTF8 = (charLines [] s.toList).map fun line => .ok (String.ofList line) := by
  have hbytes : byteLines [] (utf8 s.toList) = (charLines [] s.toList).map utf8 :=
    byteLines_utf8 [] s.toList
  rw [lines, toList_toUTF8, hbytes, List.map_map]
  apply List.map_congr_left
  intro line _
  exact decode_utf8 line

theorem charLines_append {line : List Char} (h : '\n' ∉ line) (current rest : List Char) :
    charLines current (line ++ rest) = charLines (line.reverse ++ current) rest := by
  induction line generalizing current with
  | nil => rfl
  | cons c line ih =>
    have hc : c ≠ '\n' := fun heq => h (heq ▸ List.mem_cons_self)
    have hrest : '\n' ∉ line := fun hmem => h (List.mem_cons_of_mem c hmem)
    simp only [List.cons_append, charLines, if_neg hc, ih hrest, List.reverse_cons,
      List.append_assoc, List.nil_append]

/-- Lines without line breaks in them come back when each is ended by a line feed. -/
theorem charLines_flatMap {all : List (List Char)} (h : ∀ line ∈ all, '\n' ∉ line ∧ '\r' ∉ line) :
    charLines [] (all.flatMap (· ++ ['\n'])) = all := by
  induction all with
  | nil => rfl
  | cons line rest ih =>
    obtain ⟨hfeed, hreturn⟩ := h line List.mem_cons_self
    have hkept : dropReturn line.reverse = line.reverse := by
      unfold dropReturn
      split
      · rename_i heq
        exact absurd (List.mem_reverse.mp (heq ▸ List.mem_cons_self)) hreturn
      · rfl
    rw [List.flatMap_cons, List.append_assoc, charLines_append hfeed, List.append_nil,
      List.singleton_append, charLines, if_pos rfl, hkept, List.reverse_reverse,
      ih fun other hother => h other (List.mem_cons_of_mem line hother)]

/-! ## Words -/

/-- A word: not empty and without blanks. -/
structure IsWord (w : List Char) : Prop where
  ne_nil : w ≠ []
  solid : ∀ c ∈ w, isBlank c = false

theorem wordsFrom_append {w : List Char} (h : ∀ c ∈ w, isBlank c = false)
    (current rest : List Char) :
    wordsFrom current (w ++ rest) = wordsFrom (w.reverse ++ current) rest := by
  induction w generalizing current with
  | nil => rfl
  | cons c w ih =>
    have hc : isBlank c = false := h c List.mem_cons_self
    have hrest : ∀ d ∈ w, isBlank d = false := fun d hd => h d (List.mem_cons_of_mem c hd)
    simp only [List.cons_append, wordsFrom, hc, Bool.false_eq_true, if_false, ih hrest,
      List.reverse_cons, List.append_assoc, List.nil_append]

theorem words_word {w : List Char} (h : IsWord w) : words w = [w] := by
  have hall := wordsFrom_append h.solid [] []
  have hsome : w.reverse.isEmpty = false := by simp [h.ne_nil]
  rw [List.append_nil, List.append_nil] at hall
  rw [words, hall, wordsFrom, hsome, List.reverse_reverse]
  rfl

theorem words_cons {w : List Char} (h : IsWord w) {blank : Char} (hblank : isBlank blank = true)
    (rest : List Char) : words (w ++ blank :: rest) = w :: words rest := by
  have hsome : w.reverse.isEmpty = false := by simp [h.ne_nil]
  rw [words, wordsFrom_append h.solid, List.append_nil, wordsFrom, if_pos hblank, hsome]
  simp [words]

theorem words_intercalate {blank : Char} (hblank : isBlank blank = true)
    {all : List (List Char)} (h : ∀ w ∈ all, IsWord w) : words ([blank].intercalate all) = all := by
  induction all with
  | nil => rfl
  | cons w rest ih =>
    have hw : IsWord w := h w List.mem_cons_self
    have hrest := ih fun other hother => h other (List.mem_cons_of_mem w hother)
    cases rest with
    | nil => rw [List.intercalate_singleton, words_word hw]
    | cons next more =>
      rw [List.intercalate_cons_cons, List.append_assoc, List.singleton_append,
        words_cons hw hblank, hrest]

theorem isWord_reverse {current : List Char} (hne : current ≠ [])
    (h : ∀ c ∈ current, isBlank c = false) : IsWord current.reverse where
  ne_nil := by simp [hne]
  solid c hc := h c (List.mem_reverse.mp hc)

theorem of_mem_wordsFrom {current s w : List Char} (hcurrent : ∀ c ∈ current, isBlank c = false)
    (hw : w ∈ wordsFrom current s) : IsWord w ∧ ∀ c ∈ w, c ∈ current ∨ c ∈ s := by
  induction s generalizing current with
  | nil =>
    cases current with
    | nil => simp [wordsFrom] at hw
    | cons c rest =>
      simp only [wordsFrom, List.isEmpty_cons, Bool.false_eq_true, if_false,
        List.mem_singleton] at hw
      subst hw
      exact ⟨isWord_reverse (by simp) hcurrent, fun d hd => Or.inl (List.mem_reverse.mp hd)⟩
  | cons c s ih =>
    have hlater : w ∈ wordsFrom [] s → IsWord w ∧ ∀ d ∈ w, d ∈ current ∨ d ∈ c :: s := by
      intro hlater
      have hnone : ∀ d ∈ ([] : List Char), isBlank d = false := by simp
      obtain ⟨hword, hfrom⟩ := ih hnone hlater
      exact ⟨hword, fun d hd => Or.inr (List.mem_cons_of_mem c ((hfrom d hd).resolve_left (by simp)))⟩
    rw [wordsFrom] at hw
    split at hw
    · cases current with
      | nil => exact hlater hw
      | cons d rest =>
        rcases List.mem_cons.mp hw with hw | hw
        · subst hw
          exact ⟨isWord_reverse (by simp) hcurrent, fun x hx => Or.inl (List.mem_reverse.mp hx)⟩
        · exact hlater hw
    · rename_i hblank
      have hsolid : ∀ d ∈ c :: current, isBlank d = false := by
        intro d hd
        rcases List.mem_cons.mp hd with rfl | hd
        · exact Bool.eq_false_iff.mpr hblank
        · exact hcurrent d hd
      obtain ⟨hword, hfrom⟩ := ih hsolid hw
      refine ⟨hword, fun d hd => ?_⟩
      rcases hfrom d hd with hd | hd
      · rcases List.mem_cons.mp hd with rfl | hd
        · exact Or.inr List.mem_cons_self
        · exact Or.inl hd
      · exact Or.inr (List.mem_cons_of_mem c hd)

theorem of_mem_words {s w : List Char} (h : w ∈ words s) : IsWord w ∧ ∀ c ∈ w, c ∈ s := by
  have hnone : ∀ c ∈ ([] : List Char), isBlank c = false := by simp
  obtain ⟨hword, hfrom⟩ := of_mem_wordsFrom hnone h
  exact ⟨hword, fun c hc => (hfrom c hc).resolve_left (by simp)⟩

end Classmith.Text
