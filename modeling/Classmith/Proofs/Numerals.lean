import Classmith.Number.Numeral

/-!
# Numerals

What a numeral denotes, and the decimal digits that numbers are spelled in.
-/
namespace Classmith.Number

/-! ## What a numeral denotes -/

namespace Numeral

/-- An integer of 64 bits, signed or not, is denoted by its numeral. -/
theorem word?_ofInt {n : Int} (hlow : -0x8000000000000000 ≤ n) (hhigh : n ≤ 0xFFFFFFFFFFFFFFFF) :
    (ofInt n).word? = some n := by
  unfold word? ofInt
  by_cases hneg : n < 0
  · have hsize : 0 < n.natAbs ∧ n.natAbs ≤ 0x8000000000000000 := by omega
    simp only [List.isEmpty_nil, Option.isNone_none, Bool.and_self, if_true, hneg, decide_true,
      hsize.1, hsize.2, and_self]
    congr 1
    omega
  · have hsize : n.natAbs < 0x10000000000000000 := by omega
    simp only [List.isEmpty_nil, Option.isNone_none, Bool.and_self, if_true, hneg, decide_false,
      Bool.false_eq_true, if_false, hsize]
    congr 1
    omega

theorem double?_isSome_of_single? {n : Numeral} {x : Single} (h : n.single? = some x) :
    n.double?.isSome := by
  unfold single? at h
  unfold double?
  cases hword : n.word? with
  | some i => rfl
  | none =>
    simp only [hword, double?, Option.map_map, Option.map_eq_some_iff] at h
    obtain ⟨m, hm, -⟩ := h
    simp only [hm, Option.map_some, Option.isSome_some]

end Numeral

/-! ## Digits -/

namespace Layout

theorem digitsOf_of_lt {n : Nat} (h : n < 10) : digitsOf n = [n] := by
  rw [digitsOf, Nat.toDigits_of_lt_base h]
  show [n.digitChar.toNat - 48] = [n]
  rw [Nat.toNat_digitChar_sub_48_of_lt_ten h]

theorem digitsOf_of_le {n : Nat} (h : 10 ≤ n) : digitsOf n = digitsOf (n / 10) ++ [n % 10] := by
  rw [digitsOf, Nat.toDigits_of_base_le (by decide) h, List.map_append]
  show _ ++ [(n % 10).digitChar.toNat - 48] = _
  rw [Nat.toNat_digitChar_sub_48_of_lt_ten (Nat.mod_lt n (by decide))]
  rfl

/-- Numbers below ten first, then one digit after another. -/
theorem digitsOf_induction {motive : Nat → Prop} (few : ∀ n, n < 10 → motive n)
    (more : ∀ n, 10 ≤ n → motive (n / 10) → motive n) (n : Nat) : motive n := by
  induction n using Nat.strongRecOn with
  | _ n ih =>
    by_cases h : n < 10
    · exact few n h
    · exact more n (by omega) (ih (n / 10) (by omega))

theorem lt_ten_of_mem_digitsOf {n d : Nat} (h : d ∈ digitsOf n) : d < 10 := by
  induction n using digitsOf_induction with
  | few n hn =>
    rw [digitsOf_of_lt hn, List.mem_singleton] at h
    omega
  | more n hn ih =>
    rw [digitsOf_of_le hn, List.mem_append, List.mem_singleton] at h
    rcases h with h | h
    · exact ih h
    · omega

theorem toDigits_eq (n : Nat) : Nat.toDigits 10 n = (digitsOf n).map Numeral.digit := by
  induction n using digitsOf_induction with
  | few n hn =>
    rw [digitsOf_of_lt hn, Nat.toDigits_of_lt_base hn]
    rfl
  | more n hn ih =>
    rw [digitsOf_of_le hn, Nat.toDigits_of_base_le (by decide) hn, ih, List.map_append]
    rfl

theorem digitsOf_ne_nil (n : Nat) : digitsOf n ≠ [] := by
  simp [digitsOf]

theorem head?_digitsOf {n : Nat} (h : 0 < n) : (digitsOf n).head? ≠ some 0 := by
  induction n using digitsOf_induction with
  | few n hn =>
    rw [digitsOf_of_lt hn]
    simp only [List.head?_cons, ne_eq, Option.some.injEq]
    omega
  | more n hn ih =>
    have hhead := ih (by omega)
    rw [digitsOf_of_le hn]
    cases hfront : digitsOf (n / 10) with
    | nil => exact absurd hfront (digitsOf_ne_nil _)
    | cons d rest =>
      rw [hfront] at hhead
      exact hhead

/-- The fraction of a written number is spelled in decimal digits. -/
theorem lt_ten_of_mem_fraction (l : Layout) (negative : Bool) (decimal : Decimal) {d : Nat}
    (h : d ∈ (l.numeral negative decimal).fraction) : d < 10 := by
  have hpadded : ∀ k n, d ∈ List.replicate k 0 ++ digitsOf n → d < 10 := by
    intro k n hmem
    rcases List.mem_append.mp hmem with hzero | hdigit
    · rw [List.eq_of_mem_replicate hzero]
      decide
    · exact lt_ten_of_mem_digitsOf hdigit
  unfold numeral at h
  dsimp only at h
  split at h
  · split at h
    · rw [List.mem_singleton.mp h]
      decide
    · exact hpadded _ _ h
  · split at h
    · cases h
    · exact hpadded _ _ h

end Layout

end Classmith.Number
