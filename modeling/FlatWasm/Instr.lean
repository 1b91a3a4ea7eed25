import FlatWasm.Location
import FlatWasm.Operator

/-!
# Source instructions

The instructions of a function body, with what they refer to already looked up: a call knows where its callee
lives and what type it has, an access knows its memory. Labels stay depths, counted from the innermost frame.
-/

namespace FlatWasm

/-- An instruction of a function body, resolved in the module. -/
inductive Instr where
  | unreachable
  | nop
  | block (type : FuncType)
  | loop (type : FuncType)
  | ifThen (type : FuncType)
  /-- The mark between the two branches of an `if`. -/
  | elseMark
  /-- The end of the innermost frame. -/
  | endMark
  | br (label : Nat)
  | brIf (label : Nat)
  | brTable (labels : List Nat) (fallback : Nat)
  | ret
  | call (callee : Location) (type : FuncType)
  | callIndirect (typeIndex : UInt32) (type : FuncType) (table : Location)
  | drop
  | select
  /-- `select` with its operand type written out. -/
  | typedSelect (type : ValueType)
  | localGet (index : UInt32) (type : ValueType)
  | localSet (index : UInt32) (type : ValueType)
  | localTee (index : UInt32) (type : ValueType)
  | globalGet (global : Location) (type : ValueType) (width : UInt32)
  | globalSet (global : Location) (type : ValueType) (width : UInt32)
  | access (access : Access) (offset : UInt32) (memory : Location)
  | memorySize (memory : Location)
  | memoryGrow (memory : Location)
  | memoryCopy (memory : Location)
  | memoryFill (memory : Location)
  /-- A constant of four bytes. -/
  | const32 (type : ValueType) (bits : UInt32)
  /-- A constant of eight bytes. -/
  | const64 (type : ValueType) (bits : UInt64)
  | numeric (op : NumericOp)
  | truncate (op : Truncation)
deriving DecidableEq, Repr

end FlatWasm
