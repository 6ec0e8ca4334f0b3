import Classmith.Number.Binary

/-!
# Annotations
-/
namespace Classmith

open Number (Single Double)

mutual

/-- The value of an annotation element. -/
inductive AnnotationValue where
  | boolean (value : Bool)
  | byte (value : Int8)
  | char (value : UInt16)
  | short (value : Int16)
  | int (value : Int32)
  | long (value : Int64)
  | float (value : Single)
  | double (value : Double)
  | string (value : String)
  /-- A class literal, as a descriptor. -/
  | classType (descriptor : String)
  /-- A constant of an enumeration. -/
  | enumConstant (descriptor name : String)
  | nested (value : Annotation)
  | array (values : List AnnotationValue)

/-- An annotation: the field type of its class, whether it is visible at run time, and its elements. -/
inductive Annotation where
  | mk (descriptor : String) (visible : Bool) (elements : List (String × AnnotationValue))

end

instance : Inhabited Annotation := ⟨.mk "" false []⟩

instance : Inhabited AnnotationValue := ⟨.boolean false⟩

end Classmith
