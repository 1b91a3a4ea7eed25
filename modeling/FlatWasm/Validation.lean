import FlatWasm.IndexSpace
import FlatWasm.Leb128
import FlatWasm.Opcode

/-!
# Why a body is refused

A function body is checked and lowered instruction by instruction, and the first instruction that is wrong ends
the work. `Cause` says what is wrong with it, and `ValidationError` where it stands.
-/

namespace FlatWasm

/-- What is wrong with an instruction. -/
inductive Cause where
  | underflow
  | operandType (expected actual : ValueType)
  | ifWithoutElse
  /-- Targets of a branch table that take different numbers of values. -/
  | tableArity (actual expected : Nat)
  /-- A frame that closes with more values than it must leave. -/
  | frameHeight (frame : String) (expected actual : Nat)
  | elseWithoutIf
  | openFrames (count : Nat)
  | trailingBytes (count : Nat)
  | branchDepth (depth : UInt32) (frames : Nat)
  | callee (cause : IndexSpace.Error)
  | callTable (cause : IndexSpace.Error)
  | index (cause : IndexSpace.Error)
  | localIndex (index count : UInt32)
  | immutableGlobal (index : UInt32)
  | opcode (code : UInt8)
  /-- A number after the byte `0xfc` that is no instruction. -/
  | miscOpcode (code : UInt32)
  /-- A copy from one memory to another. -/
  | copyAcross
  | immediate (what : String) (cause : Leb128.Error)
  | blockType (value : Int)
  | tableLength (length : UInt32)
  | selectCount (count : UInt32)
  | selectType (type : ValueType)
  | alignment (exponent : UInt32) (natural : Nat)
deriving DecidableEq, Repr

namespace Cause

/-- The text of the class that comes first in every message. -/
def classText : ErrorClass → String
  | .stackUnderflow => "stack underflow"
  | .typeMismatch => "type mismatch"
  | .stackMismatch => "stack height mismatch"
  | .malformedControl => "malformed control"
  | .branchDepth => "branch depth out of range"
  | .invalidCall => "invalid call"
  | .invalidIndex => "invalid index"
  | .unsupportedOpcode => "unsupported opcode"
  | .malformedImmediate => "malformed immediate"
  | _ => ""

/-- The class of the validation failure. -/
def errorClass : Cause → ErrorClass
  | .underflow => .stackUnderflow
  | .operandType .. | .ifWithoutElse | .tableArity .. => .typeMismatch
  | .frameHeight .. => .stackMismatch
  | .elseWithoutIf | .openFrames _ | .trailingBytes _ => .malformedControl
  | .branchDepth .. => .branchDepth
  | .callee _ | .callTable _ => .invalidCall
  | .index _ | .localIndex .. | .immutableGlobal _ => .invalidIndex
  | .opcode _ | .miscOpcode _ | .copyAcross => .unsupportedOpcode
  | .immediate .. | .blockType _ | .tableLength _ | .selectCount _ | .selectType _
  | .alignment .. => .malformedImmediate

/-- All classes: the failure's own, and those of the look-up that it explains. -/
def classes (c : Cause) : List ErrorClass :=
  c.errorClass ::
    match c with
    | .callee cause | .callTable cause | .index cause => cause.classes
    | _ => []

/-- What comes after the text of the class. -/
def detail : Cause → String
  | .underflow => ""
  | .operandType expected actual => s!"expected {expected.name}, but was {actual.name}"
  | .ifWithoutElse => "if without else must have the same params and results"
  | .tableArity actual expected => s!"br_table targets have {actual} and {expected} values"
  | .frameHeight frame expected actual =>
    s!"{frame} must leave {expected} values, but leaves {actual}"
  | .elseWithoutIf => "else without if"
  | .openFrames count => s!"body ended with {count} open frames"
  | .trailingBytes count => s!"{count} bytes after the end of the function"
  | .branchDepth depth frames => s!"{depth} with {frames} frames open"
  | .callee cause => cause.message
  | .callTable cause => s!"call_indirect needs a table: {cause.message}"
  | .index cause => cause.message
  | .localIndex i count => s!"local {i} of {count}"
  | .immutableGlobal i => s!"global[{i}] is immutable"
  | .opcode code => Opcode.name code
  | .miscOpcode code =>
    if code ≤ 0xff then Opcode.miscName code.toUInt8 else s!"misc {Text.hex code.toNat}"
  | .copyAcross => "memory.copy between different memories"
  | .immediate what cause => s!"read {what}: {cause.message}"
  | .blockType value => s!"invalid block type {value}"
  | .tableLength length => s!"br_table length {length} exceeds the body"
  | .selectCount count => s!"select must have exactly one type, but has {count}"
  | .selectType type => s!"invalid select type {type.hex}"
  | .alignment exponent natural =>
    s!"alignment 2^{exponent} exceeds the natural alignment {natural}"

def message (c : Cause) : String :=
  match c with
  | .underflow => classText c.errorClass
  | c => s!"{classText c.errorClass}: {c.detail}"

end Cause

/-- Why a function is refused: the instruction, its offset in the body, and what is wrong with it. -/
structure ValidationError where
  /-- The function, in the index space of functions. -/
  function : UInt32
  offset : Nat
  opcode : UInt8
  cause : Cause
deriving DecidableEq, Repr

def ValidationError.message (e : ValidationError) : String :=
  s!"invalid function[{e.function}]: {Opcode.name e.opcode} at offset {Text.hex e.offset}: {e.cause.message}"

/-- The outcome of a check on an instruction. -/
abbrev Checked (α : Type) := Except (Failure Cause) α

end FlatWasm
