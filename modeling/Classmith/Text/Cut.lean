/-!
# Cutting text at a character

Internal names are cut at their last slash or dollar sign, descriptors at their first closing
parenthesis. All cuts are made on lists of characters.
-/
namespace Classmith.Text

/-- The text before and after the first occurrence of a character. -/
def cutFirst? (mark : Char) : List Char → Option (List Char × List Char)
  | [] => none
  | c :: rest =>
    if c = mark then some ([], rest)
    else (cutFirst? mark rest).map fun (before, after) => (c :: before, after)

/-- The text before and after the last occurrence of a character. -/
def cutLast? (mark : Char) : List Char → Option (List Char × List Char)
  | [] => none
  | c :: rest =>
    match cutLast? mark rest with
    | some (before, after) => some (c :: before, after)
    | none => if c = mark then some ([], rest) else none

/-- The pieces between the occurrences of a character; there is one more than occurrences. -/
def pieces (mark : Char) : List Char → List (List Char)
  | [] => [[]]
  | c :: rest =>
    if c = mark then [] :: pieces mark rest
    else
      match pieces mark rest with
      | [] => [[c]]
      | first :: more => (c :: first) :: more

/-- What follows the given text. -/
def dropHead? : List Char → List Char → Option (List Char)
  | [], s => some s
  | _ :: _, [] => none
  | a :: head, c :: rest => if a = c then dropHead? head rest else none

/-- The number of bytes a text takes in UTF-8. -/
def byteLength : List Char → Nat
  | [] => 0
  | c :: rest => c.utf8Size + byteLength rest

theorem byteLength_append (s t : List Char) : byteLength (s ++ t) = byteLength s + byteLength t := by
  induction s with
  | nil => simp [byteLength]
  | cons c rest ih => simp [byteLength, ih, Nat.add_assoc]

/-- What is left after so many bytes; nothing if they end inside a character or past the end. -/
def dropBytes? : Nat → List Char → Option (List Char)
  | 0, s => some s
  | _ + 1, [] => none
  | n + 1, c :: rest => if c.utf8Size ≤ n + 1 then dropBytes? (n + 1 - c.utf8Size) rest else none

theorem cutFirst?_eq_some {mark : Char} {s before after : List Char}
    (h : cutFirst? mark s = some (before, after)) : s = before ++ mark :: after ∧ mark ∉ before := by
  induction s generalizing before with
  | nil => simp [cutFirst?] at h
  | cons c rest ih =>
    simp only [cutFirst?] at h
    split at h
    · rename_i hc
      simp only [Option.some.injEq, Prod.mk.injEq] at h
      obtain ⟨rfl, rfl⟩ := h
      simp [hc]
    · rename_i hc
      simp only [Option.map_eq_some_iff, Prod.mk.injEq, Prod.exists] at h
      obtain ⟨b, a, hcut, rfl, rfl⟩ := h
      obtain ⟨rfl, hnot⟩ := ih hcut
      simp [hnot, Ne.symm hc]

theorem dropHead?_eq_some {head s rest : List Char} (h : dropHead? head s = some rest) :
    s = head ++ rest := by
  induction head generalizing s with
  | nil => simpa [dropHead?] using h
  | cons a head ih =>
    cases s with
    | nil => simp [dropHead?] at h
    | cons c s =>
      simp only [dropHead?] at h
      split at h
      · rename_i hac
        simp [hac, ih h]
      · simp at h

theorem cutLast?_eq_some {mark : Char} {s before after : List Char}
    (h : cutLast? mark s = some (before, after)) : s = before ++ mark :: after := by
  induction s generalizing before with
  | nil => simp [cutLast?] at h
  | cons c rest ih =>
    simp only [cutLast?] at h
    split at h
    · rename_i b a hcut
      simp only [Option.some.injEq, Prod.mk.injEq] at h
      obtain ⟨rfl, rfl⟩ := h
      simp [ih hcut]
    · split at h
      · rename_i hc
        simp only [Option.some.injEq, Prod.mk.injEq] at h
        obtain ⟨rfl, rfl⟩ := h
        simp [hc]
      · simp at h

end Classmith.Text
