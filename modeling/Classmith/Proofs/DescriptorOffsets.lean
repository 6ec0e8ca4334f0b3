import Classmith.Descriptor
import Classmith.Proofs.Signature.Grammar
import Classmith.Proofs.Text

/-!
# Descriptors by offsets

A method descriptor can be cut up by offsets in bytes, without moving any text. An offset may lie past the
end of a text or inside a character, and then there is nothing to cut at. Read from its start, a descriptor
is only ever cut between characters, and its parts are the same as those found character by character. The loops
that look for the offsets have a limit of rounds here, which is never reached if it is above the number of bytes.
-/
namespace Classmith

namespace Text

/-! ## Offsets -/

/-- The first so many bytes of a text; nothing if they end inside a character or past the end. -/
def takeBytes? : Nat → List Char → Option (List Char)
  | 0, _ => some []
  | _ + 1, [] => none
  | n + 1, c :: rest =>
    if c.utf8Size ≤ n + 1 then (takeBytes? (n + 1 - c.utf8Size) rest).map (c :: ·) else none

/-- The text between two offsets, if it starts and ends at characters. -/
def slice? (s : List Char) (start stop : Nat) : Option (List Char) :=
  if start ≤ stop then (dropBytes? start s).bind (takeBytes? (stop - start)) else none

/-- The offset of the first occurrence of a character. -/
def offset? (mark : Char) (s : List Char) : Option Nat :=
  (cutFirst? mark s).map fun cut => byteLength cut.1

/-- The byte at an offset, read as a character of its own. -/
def byteAt? (s : List Char) (offset : Nat) : Option Char :=
  ((utf8 s)[offset]?).map fun byte => Char.ofNat byte.toNat

theorem byteLength_singleton {c : Char} (h : c.toNat < 0x80) : byteLength [c] = 1 := by
  have hlength := String.length_utf8EncodeChar c
  rw [utf8EncodeChar_of_ascii h] at hlength
  rw [byteLength, byteLength, ← hlength]
  rfl

theorem length_utf8 (s : List Char) : (utf8 s).length = byteLength s := by
  induction s with
  | nil => rfl
  | cons c rest ih => rw [utf8_cons, List.length_append, ih, String.length_utf8EncodeChar, byteLength]

/-- A first character takes some of the bytes of a text and leaves those of the rest. -/
theorem byteLength_cons_eq (c : Char) (rest : List Char) :
    ∃ n, byteLength (c :: rest) = n + 1 ∧ c.utf8Size ≤ n + 1 ∧ n + 1 - c.utf8Size = byteLength rest := by
  have hpos := c.utf8Size_pos
  refine ⟨c.utf8Size + byteLength rest - 1, ?_, ?_, ?_⟩
  · rw [byteLength]
    omega
  · omega
  · omega

theorem dropBytes?_append (front rest : List Char) :
    dropBytes? (byteLength front) (front ++ rest) = some rest := by
  induction front with
  | nil => exact dropBytes?.eq_1 rest
  | cons c front ih =>
    obtain ⟨n, hn, hfits, hleft⟩ := byteLength_cons_eq c front
    rw [hn, List.cons_append, dropBytes?, if_pos hfits, hleft, ih]

theorem takeBytes?_append (front rest : List Char) :
    takeBytes? (byteLength front) (front ++ rest) = some front := by
  induction front with
  | nil => exact takeBytes?.eq_1 rest
  | cons c front ih =>
    obtain ⟨n, hn, hfits, hleft⟩ := byteLength_cons_eq c front
    rw [hn, List.cons_append, takeBytes?, if_pos hfits, hleft, ih]
    rfl

theorem slice?_append (front middle rest : List Char) :
    slice? (front ++ (middle ++ rest)) (byteLength front) (byteLength front + byteLength middle) =
      some middle := by
  rw [slice?, if_pos (Nat.le_add_right _ _), dropBytes?_append, Option.bind_some, Nat.add_sub_cancel_left,
    takeBytes?_append]

theorem toNat_ofNat_of_lt {n : Nat} (h : n < 0x100) : (Char.ofNat n).toNat = n := by
  have hvalid : n.isValidChar := Or.inl (Nat.lt_trans h (by decide))
  rw [Char.ofNat, dif_pos hvalid]
  rfl

/-- The byte at which a character starts is as good as the character for telling whether it is a given
ASCII character. -/
theorem exists_byteAt? (front : List Char) (c : Char) (rest : List Char) :
    ∃ d, byteAt? (front ++ c :: rest) (byteLength front) = some d ∧
      ∀ mark : Char, mark.toNat < 0x80 → (d = mark ↔ c = mark) := by
  obtain ⟨byte, more, hencode⟩ : ∃ byte more, String.utf8EncodeChar c = byte :: more := by
    apply List.exists_cons_of_length_pos
    rw [String.length_utf8EncodeChar]
    exact c.utf8Size_pos
  refine ⟨Char.ofNat byte.toNat, ?_, ?_⟩
  · rw [byteAt?, utf8_append, List.getElem?_append_right (Nat.le_of_eq (length_utf8 front)), length_utf8,
      Nat.sub_self, utf8_cons, hencode]
    rfl
  · intro mark hmark
    by_cases hascii : c.toNat < 0x80
    · rw [utf8EncodeChar_of_ascii hascii] at hencode
      cases hencode
      rw [UInt8.toNat_ofNat', Nat.mod_eq_of_lt (by omega), Char.ofNat_toNat]
    · have hlarge : 0x80 ≤ byte.toNat :=
        le_of_mem_utf8EncodeChar (Nat.le_of_not_lt hascii) (by rw [hencode]; exact List.mem_cons_self)
      constructor
      · rintro rfl
        rw [toNat_ofNat_of_lt byte.toNat_lt] at hmark
        omega
      · rintro rfl
        omega

theorem byteAt?_end (s : List Char) : byteAt? s (byteLength s) = none := by
  rw [byteAt?, List.getElem?_eq_none (Nat.le_of_eq (length_utf8 s))]
  rfl

end Text

namespace Descriptor

open Text

/-! ## Field types -/

/-- The offset after all `[` from an offset on, if it is found in so many rounds. -/
def skipMarksWithin (text : List Char) : (rounds index : Nat) → Option Nat
  | 0, _ => none
  | rounds + 1, index =>
    if byteAt? text index = some '[' then skipMarksWithin text rounds (index + 1) else some index

/-- The end of the field type at an offset, if there is one, with so many rounds for the marks before it. What stands
before the name of a class is cut off to look for the end of the name, which must be possible. -/
def typeEndWithin (text : List Char) (rounds start : Nat) : Option (Option Nat) :=
  (skipMarksWithin text rounds start).bind fun index =>
    match byteAt? text index with
    | none => some none
    | some c =>
      if isPrimitive c then some (some (index + 1))
      else if c = 'L' then
        (dropBytes? index text).map fun rest => (offset? ';' rest).map fun offset => index + offset + 1
      else some none

theorem isPrimitive_eq_of_same_marks {c d : Char}
    (h : ∀ mark : Char, mark.toNat < 0x80 → (d = mark ↔ c = mark)) : isPrimitive d = isPrimitive c := by
  simp only [isPrimitive, h 'B' (by decide), h 'C' (by decide), h 'D' (by decide), h 'F' (by decide),
    h 'I' (by decide), h 'J' (by decide), h 'S' (by decide), h 'Z' (by decide)]

theorem toNat_of_isPrimitive {c : Char} (h : isPrimitive c = true) : c.toNat < 0x80 := by
  simp only [isPrimitive, Bool.or_eq_true, decide_eq_true_eq] at h
  rcases h with ((((((rfl | rfl) | rfl) | rfl) | rfl) | rfl) | rfl) | rfl <;> decide

theorem typeEndWithin_of_mark (front rest : List Char) (rounds : Nat) :
    typeEndWithin (front ++ '[' :: rest) (rounds + 1) (byteLength front) =
      typeEndWithin ((front ++ ['[']) ++ rest) rounds (byteLength (front ++ ['['])) := by
  obtain ⟨d, hd, hmark⟩ := exists_byteAt? front '[' rest
  have hnext : byteLength (front ++ ['[']) = byteLength front + 1 := by
    rw [byteLength_append, byteLength_singleton (by decide)]
  rw [typeEndWithin, typeEndWithin, skipMarksWithin, if_pos (by rw [hd, (hmark '[' (by decide)).mpr rfl]), hnext,
    List.append_assoc]
  rfl

/-- Each mark takes a byte, so the rounds suffice if there are more of them than bytes. -/
theorem typeEndWithin_append (front : List Char) {rest : List Char} {rounds : Nat} (h : byteLength rest < rounds) :
    typeEndWithin (front ++ rest) rounds (byteLength front) =
      some ((fieldType? rest).map fun found => byteLength front + byteLength found.1) := by
  obtain ⟨rounds, rfl⟩ : ∃ n, rounds = n + 1 := Nat.exists_eq_succ_of_ne_zero (by omega)
  induction rest generalizing front rounds with
  | nil =>
    rw [List.append_nil, typeEndWithin, skipMarksWithin, byteAt?_end, if_neg nofun, Option.bind_some, byteAt?_end]
    rfl
  | cons c rest ih =>
    by_cases harray : c = '['
    · subst harray
      have hnext : byteLength (front ++ ['[']) = byteLength front + 1 := by
        rw [byteLength_append, byteLength_singleton (by decide)]
      have hlonger : ∀ type : List Char, byteLength ('[' :: type) = 1 + byteLength type := fun type => rfl
      rw [hlonger] at h
      obtain ⟨rounds, rfl⟩ : ∃ n, rounds = n + 1 := Nat.exists_eq_succ_of_ne_zero (by omega)
      rw [typeEndWithin_of_mark, ih _ _ (by omega), hnext]
      simp only [fieldType?, if_pos, Option.map_map, Function.comp_def, hlonger, Nat.add_assoc]
    · obtain ⟨d, hd, hmark⟩ := exists_byteAt? front c rest
      have hstay : skipMarksWithin (front ++ c :: rest) (rounds + 1) (byteLength front) =
          some (byteLength front) := by
        rw [skipMarksWithin, if_neg]
        rw [hd, Option.some.injEq, hmark '[' (by decide)]
        exact harray
      rw [typeEndWithin, hstay, Option.bind_some, hd, fieldType?, if_neg harray]
      simp only [isPrimitive_eq_of_same_marks hmark, hmark 'L' (by decide)]
      by_cases hobject : c = 'L'
      · subst hobject
        rw [if_neg (by decide), if_pos rfl, if_pos rfl, dropBytes?_append, Option.map_some, offset?,
          cutFirst?, if_neg (by decide)]
        simp only [Option.map_map, Function.comp_def, List.cons_append, byteLength, byteLength_append]
        rfl
      · rw [if_neg hobject, if_neg hobject]
        by_cases hprimitive : isPrimitive c = true
        · rw [if_pos hprimitive, if_pos hprimitive, Option.map_some,
            byteLength_singleton (toNat_of_isPrimitive hprimitive)]
        · rw [if_neg hprimitive, if_neg hprimitive]
          rfl

/-- A field type shows its own end: the text after it is not part of it, whatever it is. -/
theorem fieldType?_append {s type after : List Char} (h : fieldType? s = some (type, after))
    (tail : List Char) : fieldType? (type ++ tail) = some (type, tail) := by
  induction s generalizing type with
  | nil => cases h
  | cons c rest ih =>
    rw [fieldType?] at h
    split at h
    · obtain ⟨⟨inner, after⟩, hinner, heq⟩ := Option.map_eq_some_iff.mp h
      cases heq
      rw [List.cons_append, fieldType?, if_pos rfl, ih hinner]
      rfl
    · rename_i harray
      split at h
      · obtain ⟨⟨name, after⟩, hname, heq⟩ := Option.map_eq_some_iff.mp h
        cases heq
        rw [List.append_assoc, List.cons_append, List.singleton_append, fieldType?, if_neg (by decide),
          if_pos rfl, Signature.cutFirst?_append (cutFirst?_eq_some hname).2]
        rfl
      · rename_i hobject
        split at h
        · rename_i hprimitive
          cases h
          rw [List.singleton_append, fieldType?, if_neg harray, if_neg hobject, if_pos hprimitive]
        · cases h

/-- A text that starts with a field type still does when it is cut off after the type. -/
theorem fieldType?_eq_some_of_append {s tail type after : List Char}
    (h : fieldType? (s ++ tail) = some (type, after)) (hfits : byteLength type ≤ byteLength s) :
    ∃ left, fieldType? s = some (type, left) := by
  rcases List.append_eq_append_iff.mp (eq_append_of_fieldType? h) with ⟨more, htype, -⟩ | ⟨left, hs, -⟩
  · rw [htype, byteLength_append] at hfits
    cases more with
    | nil => exact ⟨[], by rw [htype, List.append_nil] at h ⊢; simpa using fieldType?_append h []⟩
    | cons c more =>
      have hpos := c.utf8Size_pos
      rw [byteLength] at hfits
      omega
  · exact ⟨left, hs ▸ fieldType?_append h left⟩

/-! ## Method descriptors -/

/-- The field types from an offset to another one, or an offset where there is none, with so many rounds for them and
for the marks before each. -/
def typesWithin (text : List Char) (limit close : Nat) :
    (rounds index : Nat) → Option (Except Nat (List String))
  | 0, _ => none
  | rounds + 1, index =>
    if index < close then
      (typeEndWithin text limit index).bind fun found =>
        match found with
        | none => some (.error index)
        | some stop =>
          if stop ≤ close then
            (slice? text index stop).bind fun type =>
              (typesWithin text limit close rounds stop).map fun types => types.map (String.ofList type :: ·)
          else some (.error index)
    else some (.ok [])

section

variable {front inside rest : List Char} {limit : Nat}

theorem byteLength_pos_of_fieldType? {s type after : List Char} (h : fieldType? s = some (type, after)) :
    0 < byteLength type := by
  obtain ⟨c, tail, rfl⟩ := List.exists_cons_of_ne_nil (ne_nil_of_fieldType? h)
  obtain ⟨n, hn, -⟩ := byteLength_cons_eq c tail
  omega

/-- Where the part to read starts with no field type, the whole text may, but then the type does not end in
that part. -/
theorem typesWithin_error (hlimit : byteLength (inside ++ rest) < limit) (hinside : inside ≠ [])
    (hnone : fieldType? inside = none) (rounds : Nat) :
    typesWithin (front ++ (inside ++ rest)) limit (byteLength front + byteLength inside) (rounds + 1)
      (byteLength front) = some (.error (byteLength front)) := by
  obtain ⟨c, tail, rfl⟩ := List.exists_cons_of_ne_nil hinside
  obtain ⟨n, hn, -⟩ := byteLength_cons_eq c tail
  rw [typesWithin, if_pos (by omega), typeEndWithin_append front hlimit, Option.bind_some]
  cases hfound : fieldType? (c :: tail ++ rest) with
  | none => rfl
  | some found =>
    simp only [Option.map_some]
    rw [if_neg]
    intro hle
    obtain ⟨left, hleft⟩ := fieldType?_eq_some_of_append hfound (Nat.le_of_add_le_add_left hle)
    cases hnone.symm.trans hleft

theorem typesWithin_cons {type after : List Char} (hlimit : byteLength (type ++ after ++ rest) < limit)
    (hfound : fieldType? (type ++ after) = some (type, after)) (rounds : Nat) :
    typesWithin (front ++ (type ++ after ++ rest)) limit (byteLength front + byteLength (type ++ after))
        (rounds + 1) (byteLength front) =
      (typesWithin ((front ++ type) ++ (after ++ rest)) limit
        (byteLength front + byteLength type + byteLength after) rounds
        (byteLength front + byteLength type)).map fun types => types.map (String.ofList type :: ·) := by
  have hpos := byteLength_pos_of_fieldType? hfound
  rw [List.append_assoc] at hlimit
  have hend := typeEndWithin_append front hlimit
  rw [fieldType?_append hfound, Option.map_some] at hend
  rw [List.append_assoc type, byteLength_append type, typesWithin, if_pos (by omega), hend, Option.bind_some]
  simp only
  rw [if_pos (by omega), slice?_append, Option.bind_some, List.append_assoc, Nat.add_assoc]

/-- Each field type takes a byte at least, so the rounds suffice if there are more of them than bytes. -/
theorem typesWithin_append (hlimit : byteLength (inside ++ rest) < limit) {rounds : Nat}
    (hrounds : byteLength inside < rounds) :
    typesWithin (front ++ (inside ++ rest)) limit (byteLength front + byteLength inside) rounds (byteLength front) =
      some (fieldTypes (byteLength front) inside) := by
  induction rounds generalizing front inside with
  | zero => cases hrounds
  | succ rounds ih =>
    rw [fieldTypes]
    by_cases hempty : inside.isEmpty = true
    · rw [if_pos hempty, List.isEmpty_iff.mp hempty]
      exact if_neg (Nat.lt_irrefl _)
    · rw [if_neg hempty]
      split
      · rename_i hnone
        exact typesWithin_error hlimit (by simpa using hempty) hnone rounds
      · rename_i type after hfound
        have hpos := byteLength_pos_of_fieldType? hfound
        cases eq_append_of_fieldType? hfound
        rw [byteLength_append] at hrounds
        have hshorter : byteLength (after ++ rest) < limit := by
          rw [List.append_assoc, byteLength_append] at hlimit
          omega
        have hrest : typesWithin ((front ++ type) ++ (after ++ rest)) limit
            (byteLength (front ++ type) + byteLength after) rounds (byteLength (front ++ type)) =
              some (fieldTypes (byteLength (front ++ type)) after) := ih hshorter (by omega)
        rw [byteLength_append front] at hrest
        rw [typesWithin_cons hlimit hfound, hrest]
        cases fieldTypes (byteLength front + byteLength type) after with
        | ok types => rfl
        | error at_ => rfl

end

/-- A method descriptor split at offsets, or nothing if one of them cannot be cut at or if a loop takes more
rounds than the limit. -/
def splitWithin (limit : Nat) (descriptor : String) : Option (Except Defect MethodType) :=
  match descriptor.toList with
  | '(' :: rest =>
    match offset? ')' rest with
    | none => some (.error .noClosing)
    | some offset =>
      (typesWithin ('(' :: rest) limit (offset + 1) limit 1).bind fun types =>
        match types with
        | .error index => some (.error (.badParameter index))
        | .ok parameters =>
          (dropBytes? (offset + 2) ('(' :: rest)).bind fun result =>
            if result = ['V'] then some (.ok ⟨parameters, String.ofList result⟩)
            else
              (typeEndWithin result limit 0).map fun stop =>
                if stop = some (byteLength result) then .ok ⟨parameters, String.ofList result⟩
                else .error (.badResult (String.ofList result))
  | _ => some (.error .noOpening)

/-- A method descriptor split at offsets, with a round for each byte and one more. -/
def splitByOffsets (descriptor : String) : Option (Except Defect MethodType) :=
  splitWithin (byteLength descriptor.toList + 1) descriptor

theorem typeEndWithin_zero {s : List Char} {rounds : Nat} (h : byteLength s < rounds) :
    ∃ stop, typeEndWithin s rounds 0 = some stop ∧ (stop = some (byteLength s) ↔ isFieldType s = true) := by
  refine ⟨_, typeEndWithin_append [] h, ?_⟩
  unfold isFieldType
  cases hfound : fieldType? s with
  | none => simp
  | some found =>
    obtain ⟨type, after⟩ := found
    have hs := eq_append_of_fieldType? hfound
    cases after with
    | nil => simp [hs, byteLength]
    | cons c after =>
      have hpos := c.utf8Size_pos
      simp only [hs, Option.map_some, byteLength_append, byteLength, Option.some.injEq,
        Bool.false_eq_true, iff_false]
      omega

theorem split_of_no_opening {descriptor : String} (h : ∀ rest, descriptor.toList ≠ '(' :: rest) :
    split descriptor = .error .noOpening := by
  unfold split
  split
  · exact absurd (by assumption) (h _)
  · rfl

theorem splitWithin_of_no_opening {limit : Nat} {descriptor : String}
    (h : ∀ rest, descriptor.toList ≠ '(' :: rest) :
    splitWithin limit descriptor = some (.error .noOpening) := by
  unfold splitWithin
  split
  · exact absurd (by assumption) (h _)
  · rfl

/-- Every offset at which a method descriptor is cut lies inside it and between two characters. -/
theorem splitWithin_eq {limit : Nat} {descriptor : String} (h : byteLength descriptor.toList < limit) :
    splitWithin limit descriptor = some (split descriptor) := by
  by_cases hopening : ∃ rest, descriptor.toList = '(' :: rest
  · obtain ⟨rest, hrest⟩ := hopening
    unfold splitWithin split
    rw [hrest, byteLength] at h
    simp only [hrest, offset?]
    cases hcut : cutFirst? ')' rest with
    | none => rfl
    | some cut =>
      obtain ⟨inside, result⟩ := cut
      have hcutRest := (cutFirst?_eq_some hcut).1
      have hbytes : byteLength rest = byteLength inside + byteLength (')' :: result) := by
        rw [hcutRest, byteLength_append]
      have htypes : typesWithin ('(' :: rest) limit (byteLength inside + 1) limit 1 =
          some (fieldTypes 1 inside) := by
        have hlimit : byteLength (inside ++ ')' :: result) < limit := by
          rw [← hcutRest]
          omega
        have hread : typesWithin (['('] ++ (inside ++ ')' :: result)) limit (byteLength ['('] + byteLength inside)
            limit (byteLength ['(']) = some (fieldTypes (byteLength ['(']) inside) :=
          typesWithin_append hlimit (by omega)
        rw [hcutRest, Nat.add_comm]
        exact hread
      have hresult : dropBytes? (byteLength inside + 2) ('(' :: rest) = some result := by
        have hlength : byteLength ('(' :: inside ++ [')']) = byteLength inside + 2 := by
          rw [byteLength_append, byteLength, Nat.add_comm _ (byteLength inside)]
          rfl
        rw [hcutRest, ← hlength, List.append_cons inside]
        exact dropBytes?_append ('(' :: inside ++ [')']) result
      have hfits : byteLength result < limit := by
        rw [byteLength] at hbytes
        omega
      obtain ⟨stop, hstop, hwhole⟩ := typeEndWithin_zero hfits
      simp only [Option.map_some, htypes, Option.bind_some]
      cases fieldTypes 1 inside with
      | error index => rfl
      | ok parameters =>
        simp only [hresult, Option.bind_some, hstop, Option.map_some, hwhole, Bool.or_eq_true,
          decide_eq_true_eq]
        by_cases hvoid : result = ['V']
        · rw [if_pos hvoid, if_pos (Or.inl hvoid)]
        · simp only [hvoid, if_false, false_or]
  · have hnone : ∀ rest, descriptor.toList ≠ '(' :: rest := fun rest h => hopening ⟨rest, h⟩
    rw [splitWithin_of_no_opening hnone, split_of_no_opening hnone]

end Descriptor

end Classmith
