import Classmith.ClassFile.Constant

/-!
# Instructions and stack map frames

Instructions are grouped by the operands they carry; the opcode says which of a group is meant.
Labels, frames and line numbers stand between the instructions and have no opcode.
-/
namespace Classmith

/-- A place in a method body. -/
abbrev Label := UInt32

/-- A verification type. A long or double takes one entry of a frame and two local slots. -/
inductive FrameValue where
  | top
  | integer
  | float
  | long
  | double
  | null
  | uninitializedThis
  /-- An internal name or an array type. -/
  | object (name : String)
  /-- What the allocation after the label creates, before its constructor has run. -/
  | uninitialized (label : Label)
deriving DecidableEq, Repr, Inhabited

/-- A stack map frame as a change to the frame before it. -/
inductive Frame where
  | same
  | same1 (stack : FrameValue)
  | append (locals : List FrameValue)
  | chop (count : UInt64)
  | full (locals stack : List FrameValue)
deriving DecidableEq, Repr, Inhabited

inductive Instruction where
  /-- An instruction without operands. -/
  | insn (opcode : UInt8)
  | int (opcode : UInt8) (operand : Int32)
  | var (opcode : UInt8) (slot : UInt16)
  /-- The operand is an internal name or an array type. -/
  | type (opcode : UInt8) (operand : String)
  | field (opcode : UInt8) (owner name descriptor : String)
  | method (opcode : UInt8) (owner name descriptor : String) (isInterface : Bool)
  | invokeDynamic (name descriptor : String) (bootstrap : Handle) (arguments : List Constant)
  | jump (opcode : UInt8) (label : Label)
  | label (id : Label)
  | ldc (value : Constant)
  | iinc (slot : UInt16) (increment : Int16)
  | tableSwitch (min max : Int32) (default : Label) (labels : List Label)
  | lookupSwitch (default : Label) (keys : List Int32) (labels : List Label)
  | multiNewArray (descriptor : String) (dimensions : UInt8)
  | frame (frame : Frame)
  | line (line : UInt16) (start : Label)
deriving Repr, Inhabited

namespace Instruction

/-- The opcode of an instruction, none for what only stands between instructions. -/
def opcode? : Instruction → Option UInt8
  | insn opcode | int opcode _ | var opcode _ | type opcode _ | field opcode _ _ _
  | method opcode _ _ _ _ | jump opcode _ => some opcode
  | invokeDynamic _ _ _ _ => some 0xba
  | ldc _ => some 0x12
  | iinc _ _ => some 0x84
  | tableSwitch _ _ _ _ => some 0xaa
  | lookupSwitch _ _ _ => some 0xab
  | multiNewArray _ _ => some 0xc5
  | label _ | frame _ | line _ _ => none

/-- The name of an instruction's group in listings. -/
def groupName : Instruction → String
  | insn _ => "insn"
  | int _ _ => "int"
  | var _ _ => "var"
  | type _ _ => "type"
  | field _ _ _ _ => "field"
  | method _ _ _ _ _ => "method"
  | invokeDynamic _ _ _ _ => "invokedynamic"
  | jump _ _ => "jump"
  | label _ => "label"
  | ldc _ => "ldc"
  | iinc _ _ => "iinc"
  | tableSwitch _ _ _ _ => "tableswitch"
  | lookupSwitch _ _ _ => "lookupswitch"
  | multiNewArray _ _ => "multianewarray"
  | frame _ => "frame"
  | line _ _ => "line"

end Instruction

end Classmith
