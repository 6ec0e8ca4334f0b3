import Classmith.Text.Cut

/-!
# Field and method descriptors

A field type is any number of `[` before a primitive letter or before `L`, a name and `;`. A method
descriptor is a parenthesised sequence of field types and a field type or `V` as result.
-/
namespace Classmith

/-- How many words a value takes on the operand stack. -/
inductive Category where
  | one
  | two
deriving DecidableEq, Repr, Inhabited

namespace Category

def words : Category → Nat
  | one => 1
  | two => 2

end Category

namespace Descriptor

open Text

/-- Longs and doubles take two words. -/
def category (descriptor : String) : Category :=
  match descriptor.toList with
  | 'J' :: _ => .two
  | 'D' :: _ => .two
  | _ => .one

/-- The letters of the primitive types. -/
def isPrimitive (c : Char) : Bool :=
  c = 'B' || c = 'C' || c = 'D' || c = 'F' || c = 'I' || c = 'J' || c = 'S' || c = 'Z'

/-- The field type at the start of a text, and what follows it. -/
def fieldType? : List Char → Option (List Char × List Char)
  | [] => none
  | c :: rest =>
    if c = '[' then (fieldType? rest).map fun (type, after) => ('[' :: type, after)
    else if c = 'L' then
      (cutFirst? ';' rest).map fun (name, after) => ('L' :: name ++ [';'], after)
    else if isPrimitive c then some ([c], rest)
    else none

theorem eq_append_of_fieldType? {s type after : List Char} (h : fieldType? s = some (type, after)) :
    s = type ++ after := by
  induction s generalizing type with
  | nil => simp [fieldType?] at h
  | cons c rest ih =>
    simp only [fieldType?] at h
    split at h
    · rename_i hc
      simp only [Option.map_eq_some_iff, Prod.mk.injEq, Prod.exists] at h
      obtain ⟨t, a, ht, rfl, rfl⟩ := h
      simp [hc, ih ht]
    · split at h
      · rename_i hc
        simp only [Option.map_eq_some_iff, Prod.mk.injEq, Prod.exists] at h
        obtain ⟨n, a, hn, rfl, rfl⟩ := h
        simp [hc, (cutFirst?_eq_some hn).1]
      · split at h
        · simp only [Option.some.injEq, Prod.mk.injEq] at h
          obtain ⟨rfl, rfl⟩ := h
          rfl
        · simp at h

theorem ne_nil_of_fieldType? {s type after : List Char} (h : fieldType? s = some (type, after)) :
    type ≠ [] := by
  cases s with
  | nil => simp [fieldType?] at h
  | cons c rest =>
    simp only [fieldType?] at h
    rintro rfl
    split at h
    · simp at h
    · split at h
      · simp at h
      · split at h <;> simp at h

theorem length_of_fieldType? {s type after : List Char} (h : fieldType? s = some (type, after)) :
    after.length < s.length := by
  have hpos := List.length_pos_iff.2 (ne_nil_of_fieldType? h)
  rw [eq_append_of_fieldType? h, List.length_append]
  omega

/-- Where the field type that starts at a byte offset ends. -/
def fieldTypeEnd? (descriptor : String) (start : Nat) : Option Nat := do
  let rest ← dropBytes? start descriptor.toList
  let (type, _) ← fieldType? rest
  return start + byteLength type

/-- What is wrong with a method descriptor. -/
inductive Defect where
  | noOpening
  | noClosing
  | badParameter (offset : Nat)
  | badResult (text : String)
deriving DecidableEq, Repr

namespace Defect

def message : Defect → String
  | noOpening => "missing '('"
  | noClosing => "missing ')'"
  | badParameter offset => s!"bad parameter type at offset {offset}"
  | badResult text => s!"bad return type {text}"

end Defect

/-- The parts of a method descriptor. -/
structure MethodType where
  parameters : List String
  result : String
deriving DecidableEq, Repr

/-- Cuts a text into field types; fails with the byte offset of what is none. -/
def fieldTypes (offset : Nat) (s : List Char) : Except Nat (List String) :=
  if s.isEmpty then .ok []
  else
    match _h : fieldType? s with
    | none => .error offset
    | some (type, after) =>
      match fieldTypes (offset + byteLength type) after with
      | .ok types => .ok (String.ofList type :: types)
      | .error at_ => .error at_
termination_by s.length
decreasing_by exact length_of_fieldType? _h

/-- Whether a text is one field type and no more. -/
def isFieldType (s : List Char) : Bool :=
  match fieldType? s with
  | some (_, []) => true
  | _ => false

/-- Splits a method descriptor at its first closing parenthesis. -/
def split (descriptor : String) : Except Defect MethodType :=
  match descriptor.toList with
  | '(' :: rest =>
    match cutFirst? ')' rest with
    | none => .error .noClosing
    | some (inside, result) =>
      match fieldTypes 1 inside with
      | .error offset => .error (.badParameter offset)
      | .ok parameters =>
        if result = ['V'] || isFieldType result then .ok ⟨parameters, String.ofList result⟩
        else .error (.badResult (String.ofList result))
  | _ => .error .noOpening

/-- The text reported for a descriptor that does not split. -/
def failure (descriptor : String) (defect : Defect) : String :=
  s!"parse method descriptor {descriptor}: {defect.message}"

/-- The class name in an object type: `Lfoo/Bar;` gives `foo/Bar`. -/
def internalName? (descriptor : String) : Option String :=
  match descriptor.toList with
  | 'L' :: rest => if rest.getLast? = some ';' then some (String.ofList rest.dropLast) else none
  | _ => none

/-- The class a method returns, if it returns an object that is no array. -/
def returnedClass? (descriptor : String) : Option String := do
  let (_, result) ← cutLast? ')' descriptor.toList
  internalName? (String.ofList result)

/-- Whether a class name is an array type standing in for one. -/
def isArray (name : String) : Bool := name.toList.head? = some '['

/-- The field type of a class name, which for an array type is the name itself. -/
def ofName (name : String) : String := if isArray name then name else "L" ++ name ++ ";"

end Descriptor

end Classmith
