import FlatWasm.Defect

/-!
# Value types, function types, limits

A value type is a byte of the binary format. Four bytes name the numeric types that operands, locals and
globals have, and one names the type of table entries. Every other byte can still be written down in a module
description, so the type keeps the byte and the named ones are constants.

The byte zero is `bottom`: the type of an operand of which nothing is known, because the code that would push
it cannot run. It matches every type.
-/

namespace FlatWasm

/-- A value type, by its byte in the binary format. -/
structure ValueType where
  code : UInt8
deriving DecidableEq, Repr, Inhabited

namespace ValueType

abbrev i32 : ValueType := ⟨0x7f⟩
abbrev i64 : ValueType := ⟨0x7e⟩
abbrev f32 : ValueType := ⟨0x7d⟩
abbrev f64 : ValueType := ⟨0x7c⟩

/-- The type of table entries. It never appears on the operand stack. -/
abbrev funcref : ValueType := ⟨0x70⟩

/-- The type of an operand in code that cannot run. -/
abbrev bottom : ValueType := ⟨0⟩

/-- The four types of operands. -/
def isNumeric (t : ValueType) : Bool :=
  t == i32 || t == i64 || t == f32 || t == f64

/-- The name in the text format, `unknown` for a byte that names no type. -/
def name (t : ValueType) : String :=
  if t = i32 then "i32"
  else if t = i64 then "i64"
  else if t = f32 then "f32"
  else if t = f64 then "f64"
  else if t = funcref then "funcref"
  else "unknown"

/-- The width in bytes of a value of the type. Table entries, globals, loads and stores are sized by it. -/
def width (t : ValueType) : Except Defect UInt32 :=
  if t = i32 ∨ t = f32 ∨ t = funcref then .ok 4
  else if t = i64 ∨ t = f64 then .ok 8
  else .error (.unknownWidth t.code)

/-- The byte in hexadecimal, for messages. -/
def hex (t : ValueType) : String :=
  Text.hex t.code.toNat

end ValueType

/-- A function type: what it takes and what it returns, either possibly empty. -/
structure FuncType where
  params : List ValueType := []
  results : List ValueType := []
deriving DecidableEq, Repr, Inhabited

namespace FuncType

/-- One side of a signature: the names of the types run together, `v` for none. -/
def sideText : List ValueType → String
  | [] => "v"
  | ts => String.join (ts.map ValueType.name)

/-- The signature as text, such as `i32i32_i64`. -/
def text (t : FuncType) : String :=
  sideText t.params ++ "_" ++ sideText t.results

end FuncType

/-- The type of a global variable. -/
structure GlobalType where
  valueType : ValueType
  isMutable : Bool := false
deriving DecidableEq, Repr, Inhabited

/-- The type as text, such as `mut i32`. -/
def GlobalType.text (t : GlobalType) : String :=
  if t.isMutable then "mut " ++ t.valueType.name else t.valueType.name

/-- The least and the greatest size of a memory (in pages) or table (in entries). -/
structure Limits where
  min : UInt32 := 0
  max : Option UInt32 := none
deriving DecidableEq, Repr, Inhabited

namespace Limits

/-- The greatest number of pages of any memory. -/
def maxPages : UInt32 := 65536

/-- The greatest number of entries of any table. -/
def maxEntries : UInt32 := 134217728

/-- The greatest size, or `ceiling` where none is declared. -/
def maxOr (l : Limits) (ceiling : UInt32) : UInt32 :=
  l.max.getD ceiling

/-- What is wrong with limits. -/
inductive Error where
  | minAboveCeiling (min ceiling : UInt32)
  | maxAboveCeiling (max ceiling : UInt32)
  | minAboveMax (min max : UInt32)
deriving DecidableEq, Repr

/-- The text of an error about the limits of `what`. -/
def Error.message (what : String) : Error → String
  | .minAboveCeiling min ceiling => s!"{what} min {min} exceeds the limit {ceiling}"
  | .maxAboveCeiling max ceiling => s!"{what} max {max} exceeds the limit {ceiling}"
  | .minAboveMax min max => s!"{what} min {min} is greater than max {max}"

/-- Limits are within `ceiling`, and the minimum is not above the maximum. -/
def check (l : Limits) (ceiling : UInt32) : Except Error Unit := do
  if ceiling < l.min then throw (.minAboveCeiling l.min ceiling)
  match l.max with
  | none => pure ()
  | some max =>
    if ceiling < max then throw (.maxAboveCeiling max ceiling)
    if max < l.min then throw (.minAboveMax l.min max)

end Limits

/-- What an import or export is: a function, table, memory or global, by its byte in the binary format. -/
structure ExternKind where
  code : UInt8
deriving DecidableEq, Repr, Inhabited

namespace ExternKind

abbrev func : ExternKind := ⟨0⟩
abbrev table : ExternKind := ⟨1⟩
abbrev memory : ExternKind := ⟨2⟩
abbrev global : ExternKind := ⟨3⟩

/-- The byte in hexadecimal, for messages. -/
def hex (k : ExternKind) : String :=
  Text.hex k.code.toNat

/-- The keyword of the kind in the text format, the byte in hexadecimal for any other. -/
def name (k : ExternKind) : String :=
  if k = func then "func"
  else if k = table then "table"
  else if k = memory then "memory"
  else if k = global then "global"
  else k.hex

end ExternKind

end FlatWasm
