import Classmith.ClassFile.Constant
import Classmith.Descriptor

/-!
# Simulated values

A value on the operand stack or in a local slot: its field type, whether it can be used, and where it
came from. Positions count the instructions of the method.
-/
namespace Classmith.Simulation

mutual

/-- A simulated value. Copies of a value share its number. -/
inductive Value where
  | mk (id : Nat) (descriptor : Option String) (isValid isNull : Bool) (origin : Origin)

/-- Where a value came from. -/
inductive Origin where
  | constant (value : Constant)
  | null
  | this
  /-- The position among the parameters and the local slot. -/
  | parameter (index slot : Nat)
  | fieldRead (position : Nat)
  | methodReturn (position : Nat)
  | dynamicReturn (position : Nat)
  | newObject (position : Nat)
  | newArray (position : Nat) (lengths : List Value)
  | arrayElement (position : Nat) (array index : Value)
  | arrayLength (position : Nat) (array : Value)
  | cast (position : Nat) (source : Value)
  | instanceOf (position : Nat) (checked : Value)
  | arithmetic (position : Nat) (left right : Value)
  | negation (position : Nat) (operand : Value)
  | conversion (position : Nat) (source : Value)
  | comparison (position : Nat) (left right : Value)
  /-- Declared by a stack map frame. -/
  | frame (position : Nat)
  /-- A local slot that was never written. -/
  | undefined
  /-- The second half of a two-word value, or a slot a frame declares unusable. -/
  | invalid

end

namespace Value

def id : Value → Nat
  | mk id _ _ _ _ => id

/-- The field type, absent for null and for unusable values. -/
def descriptor : Value → Option String
  | mk _ descriptor _ _ _ => descriptor

def isValid : Value → Bool
  | mk _ _ isValid _ _ => isValid

def isNull : Value → Bool
  | mk _ _ _ isNull _ => isNull

def origin : Value → Origin
  | mk _ _ _ _ origin => origin

/-- The number of words, absent for unusable values. -/
def category (v : Value) : Option Category :=
  if v.isNull then some .one
  else if !v.isValid then none
  else v.descriptor.map Descriptor.category

/-- The class of the value, if it is an object that is no array. -/
def className? (v : Value) : Option String := v.descriptor.bind Descriptor.internalName?

/-- The value in listings. -/
def text (v : Value) : String :=
  if v.isNull then "null"
  else if !v.isValid then "<invalid>"
  else v.descriptor.getD "<undefined>"

/-- The value before all checked casts. -/
def stripCasts : Value → Value
  | mk _ _ _ _ (.cast _ source) => source.stripCasts
  | mk id descriptor isValid isNull origin => mk id descriptor isValid isNull origin

end Value

namespace Origin

/-- The values that an origin refers to. -/
def operands : Origin → List Value
  | newArray _ lengths => lengths
  | arrayElement _ array index => [array, index]
  | arrayLength _ v | cast _ v | instanceOf _ v | negation _ v | conversion _ v => [v]
  | arithmetic _ left right | comparison _ left right => [left, right]
  | _ => []

end Origin

end Classmith.Simulation
