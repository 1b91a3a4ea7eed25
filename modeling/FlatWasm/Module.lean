import FlatWasm.Locals

/-!
# Module descriptions

A module as its sections describe it. Function bodies are the bytes of their instructions, still to be checked
and lowered.

## Why parts can be missing

A description need not come from a binary: an embedder can write one down, and leave out a type, the limits of
an imported memory, the initial value of a global. Such parts are `Option`s. Checking a module refuses the
descriptions that lack one; what works on an unchecked description meets a defect there.
-/

namespace FlatWasm

/-- An initializer: a single constant or `global.get`, without the end that follows it. `data` is the immediate
as it is written in the binary format. -/
structure ConstExpr where
  opcode : UInt8
  data : List UInt8 := []
deriving DecidableEq, Repr, Inhabited

/-- What an import asks for. -/
inductive ImportDesc where
  | func (typeIndex : UInt32)
  | table (limits : Option Limits)
  | memory (limits : Option Limits)
  | global (type : Option GlobalType)
  | other (kind : ExternKind)
deriving DecidableEq, Repr

/-- The kind byte of an import. -/
def ImportDesc.kind : ImportDesc → ExternKind
  | .func _ => .func
  | .table _ => .table
  | .memory _ => .memory
  | .global _ => .global
  | .other kind => kind

/-- An import, under its two-level name. -/
structure Import where
  module : String
  name : String
  desc : ImportDesc
deriving DecidableEq, Repr

/-- An entity that a module makes available. `index` is in the namespace of `kind`, so it may be an import. -/
structure Export where
  kind : ExternKind
  name : String
  index : UInt32
deriving DecidableEq, Repr

/-- A global that a module defines, with its initial value. -/
structure Global where
  type : Option GlobalType
  init : Option ConstExpr
deriving DecidableEq, Repr

/-- Function indices to write into a table. -/
structure ElementSegment where
  table : UInt32 := 0
  offset : Option ConstExpr
  init : List UInt32
deriving DecidableEq, Repr

/-- Bytes to write into a memory. -/
structure DataSegment where
  memory : UInt32 := 0
  offset : Option ConstExpr
  init : List UInt8
deriving DecidableEq, Repr

/-- The declared locals and the body of a function. -/
structure Code where
  locals : Locals
  body : List UInt8
deriving DecidableEq, Repr

/-- A module: its sections in the order of the binary format. -/
structure Module where
  types : List (Option FuncType) := []
  imports : List Import := []
  /-- The type index of each function that the module defines. -/
  functions : List UInt32 := []
  tables : List Limits := []
  memories : List Limits := []
  globals : List Global := []
  exports : List Export := []
  start : Option UInt32 := none
  elements : List ElementSegment := []
  /-- The code of each function that the module defines. -/
  code : List Code := []
  data : List DataSegment := []
deriving DecidableEq, Repr, Inhabited

end FlatWasm
