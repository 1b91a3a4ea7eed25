import FlatWasm.ConstExpr
import FlatWasm.Store.Linear

/-!
# Segments

What is written into a store when a module is instantiated: bytes, and the place where they go. The place is a
number of units, known from the start or read from a global, times the width of a unit.

The segments of a store are written all together or not at all. Where the last of them would end beyond the store,
the answer is how long the store would have to be.
-/

namespace FlatWasm

/-- Where the number of units comes from. -/
inductive Base where
  | const (value : UInt32)
  | global (index : UInt32)
deriving DecidableEq, Repr

/-- Where a segment goes. -/
structure Offset where
  base : Base
  /-- The width of a unit in bytes. Zero stands for one. -/
  scale : UInt32
deriving DecidableEq, Repr

/-- An offset that cannot be read. -/
structure OffsetError where
  global : UInt32
  cause : GlobalError
deriving DecidableEq, Repr

def OffsetError.message (e : OffsetError) : String :=
  s!"read offset from global[{e.global}]: {e.cause.message}"

def OffsetError.classes (e : OffsetError) : List ErrorClass :=
  e.cause.classes

/-- Reads the `i32` value of a global. -/
abbrev GlobalReader := UInt32 → Except GlobalError UInt32

namespace Offset

/-- The number of units. -/
def units (o : Offset) (globals : GlobalReader) : Except OffsetError UInt32 :=
  match o.base with
  | .const value => .ok value
  | .global i => (globals i).mapError fun cause => ⟨i, cause⟩

/-- The offset in bytes. -/
def resolve (o : Offset) (globals : GlobalReader) : Except OffsetError Nat := do
  let units ← o.units globals
  let scale := if o.scale = 0 then 1 else o.scale
  return units.toNat * scale.toNat

end Offset

/-- Bytes to write into a store. -/
structure Segment where
  payload : List UInt8
  offset : Offset
deriving DecidableEq, Repr

/-- Bytes to write at a position. -/
structure Placed where
  position : Nat
  payload : List UInt8
deriving DecidableEq, Repr

/-- The position after the last byte. -/
def Placed.stop (p : Placed) : Nat :=
  p.position + p.payload.length

/-- What became of segments. -/
inductive Applied where
  | written (store : Linear)
  /-- Nothing is written: the store would have to have this length. -/
  | needs (length : Nat)
deriving DecidableEq, Repr

/-- The position after the last byte of all. -/
def lastStop (placed : List Placed) : Nat :=
  (placed.map Placed.stop).foldl max 0

namespace Linear

/-- The store with bytes written in order. -/
def putAll (s : Linear) (placed : List Placed) : Linear :=
  placed.foldl (fun s p => s.put p.position p.payload) s

/-- Writes segments in order, if all of them fit. -/
def apply (s : Linear) (segments : List Segment) (globals : GlobalReader) :
    Except OffsetError Applied := do
  let placed ← segments.mapM fun segment =>
    return { position := ← segment.offset.resolve globals, payload := segment.payload }
  let stop := lastStop placed
  if s.length < stop then return .needs stop else return .written (s.putAll placed)

end Linear

/-! ## Segments of a module -/

namespace Offset

/-- What is wrong with the offset expression of a segment. -/
inductive ExprError where
  | missing
  | expr (cause : ConstExpr.Error)
  | opcode (code : UInt8)
deriving DecidableEq, Repr

namespace ExprError

def message : ExprError → String
  | .missing => "missing offset expression"
  | .expr cause => cause.message
  | .opcode code =>
    s!"offset expression must be i32.const or global.get, but was {Opcode.name code}"

def classes : ExprError → List ErrorClass
  | .expr cause => cause.classes
  | .missing | .opcode _ => []

end ExprError

/-- The offset that an expression denotes: an `i32` constant or the value of a global. -/
def ofExpr (expr : Option ConstExpr) (scale : UInt32) : Except ExprError Offset :=
  match expr with
  | none => .error .missing
  | some e =>
    match e.immediate with
    | .error cause => .error (.expr cause)
    | .ok v =>
      if e.opcode = Opcode.i32Const then .ok ⟨.const v.toUInt32, scale⟩
      else if e.opcode = Opcode.globalGet then .ok ⟨.global v.toUInt32, scale⟩
      else .error (.opcode e.opcode)

end Offset

namespace Segment

/-- A segment of a module that cannot be made. -/
inductive Error where
  | data (cause : Offset.ExprError)
  | element (cause : Offset.ExprError)
deriving DecidableEq, Repr

namespace Error

def message : Error → String
  | .data cause => s!"data: {cause.message}"
  | .element cause => s!"element: {cause.message}"

def classes : Error → List ErrorClass
  | .data cause | .element cause => cause.classes

end Error

/-- What a data segment writes into its memory. -/
def ofData (d : DataSegment) : Except Error Segment :=
  match Offset.ofExpr d.offset 1 with
  | .ok offset => .ok { payload := d.init, offset }
  | .error e => .error (.data e)

end Segment

end FlatWasm
