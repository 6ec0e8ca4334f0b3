import Classmith.Number.Binary

/-!
# Loadable constants
-/
namespace Classmith

open Number (Single Double)

/-- A reference to a field or method, as a value. -/
structure Handle where
  tag : UInt8 := 0
  owner : String := ""
  name : String := ""
  descriptor : String := ""
  isInterface : Bool := false
deriving DecidableEq, Repr, Inhabited

/-- The reference kinds one to four read or write a field. -/
def Handle.isField (h : Handle) : Bool := 1 ≤ h.tag && h.tag ≤ 4

/-- A value that an instruction can load. -/
inductive Constant where
  | int (value : Int32)
  | float (value : Single)
  | long (value : Int64)
  | double (value : Double)
  | string (value : String)
  /-- A class literal: an internal name or an array type. -/
  | type (name : String)
  | methodType (descriptor : String)
  | handle (handle : Handle)
  /-- A constant computed by a bootstrap method. -/
  | dynamic (name descriptor : String) (bootstrap : Handle) (arguments : List Constant)
deriving Repr, Inhabited

/-- The field type of the value that loading a constant pushes. -/
def Constant.descriptor : Constant → String
  | .int _ => "I"
  | .float _ => "F"
  | .long _ => "J"
  | .double _ => "D"
  | .string _ => "Ljava/lang/String;"
  | .type _ => "Ljava/lang/Class;"
  | .methodType _ => "Ljava/lang/invoke/MethodType;"
  | .handle _ => "Ljava/lang/invoke/MethodHandle;"
  | .dynamic _ descriptor _ _ => descriptor

end Classmith
