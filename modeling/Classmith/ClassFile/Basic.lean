import Classmith.ClassFile.Annotation
import Classmith.ClassFile.Instruction
import Classmith.Name

/-!
# Classes

The structure of a compiled class: its declarations, the code of its methods and its attributes.
-/
namespace Classmith

namespace Access

def isPublic (access : UInt16) : Bool := access &&& 0x0001 != 0

def isPrivate (access : UInt16) : Bool := access &&& 0x0002 != 0

def isProtected (access : UInt16) : Bool := access &&& 0x0004 != 0

def isStatic (access : UInt16) : Bool := access &&& 0x0008 != 0

def isInterface (access : UInt16) : Bool := access &&& 0x0200 != 0

end Access

structure Field where
  access : UInt16 := 0
  name : String := ""
  descriptor : String := ""
  signature : Option String := none
  value : Option Constant := none
  annotations : List Annotation := []
  typeAnnotations : List Annotation := []
deriving Inhabited

/-- A range of a method body guarded by a handler; without a type it catches everything. -/
structure TryCatch where
  start : Label
  stop : Label
  handler : Label
  type : Option String
deriving DecidableEq, Repr, Inhabited

structure LocalVariable where
  name : String
  descriptor : String
  signature : Option String
  start : Label
  stop : Label
  slot : UInt16
deriving DecidableEq, Repr, Inhabited

structure Method where
  access : UInt16 := 0
  name : String := ""
  descriptor : String := ""
  signature : Option String := none
  exceptions : List String := []
  maxStack : UInt16 := 0
  maxLocals : UInt16 := 0
  instructions : List Instruction := []
  tryCatches : List TryCatch := []
  localVariables : List LocalVariable := []
  annotations : List Annotation := []
  typeAnnotations : List Annotation := []
  parameterAnnotations : List (List Annotation) := []
  annotationDefault : Option AnnotationValue := none
deriving Inhabited

def Method.isStatic (m : Method) : Bool := Access.isStatic m.access

/-- An entry of the table of inner classes. -/
structure InnerClass where
  name : String := ""
  outerName : Option String := none
  innerName : Option String := none
  access : UInt16 := 0
deriving DecidableEq, Repr, Inhabited

structure RecordComponent where
  name : String := ""
  descriptor : String := ""
  signature : Option String := none
  annotations : List Annotation := []
  typeAnnotations : List Annotation := []
deriving Inhabited

/-- The providers a module offers for a service. -/
structure Provision where
  service : String := ""
  providers : List String := []
deriving DecidableEq, Repr, Inhabited

structure Module where
  name : String := ""
  mainClass : Option String := none
  uses : List String := []
  provides : List Provision := []
deriving DecidableEq, Repr, Inhabited

structure Class where
  /-- The major version of the class file. -/
  version : UInt16 := 0
  access : UInt16 := 0
  name : String := ""
  superName : Option String := none
  interfaces : List String := []
  signature : Option String := none
  sourceFile : Option String := none
  fields : List Field := []
  methods : List Method := []
  innerClasses : List InnerClass := []
  outerClass : Option String := none
  outerMethod : Option String := none
  outerMethodDescriptor : Option String := none
  nestHost : Option String := none
  nestMembers : List String := []
  permittedSubclasses : List String := []
  recordComponents : List RecordComponent := []
  module : Option Module := none
  annotations : List Annotation := []
  typeAnnotations : List Annotation := []
deriving Inhabited

namespace Class

def isInterface (c : Class) : Bool := Access.isInterface c.access

def package (c : Class) : String := Name.package c.name

/-- The first method with the given name and, if one is given, the given descriptor. -/
def findMethod? (c : Class) (name : String) (descriptor : Option String) : Option Method :=
  c.methods.find? fun m => m.name = name && descriptor.all fun d => m.descriptor = d

end Class

end Classmith
