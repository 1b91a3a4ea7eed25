import FlatWasm.ErrorClass
import FlatWasm.Leb128
import FlatWasm.ValueType

/-!
# Faults of a binary module

Why bytes are not a module. A fault is met at one place, inside parts of the format that enclose each other; its
text names the parts from the outside in, and then the place.

Some parts keep the class of the fault inside them, and some only quote its text. That is a property of the
part, `Part.quotes`.
-/

namespace FlatWasm.Binary

/-- The name of a section, by its number. -/
def sectionName (id : UInt8) : String :=
  match id.toNat with
  | 0 => "custom"
  | 1 => "type"
  | 2 => "import"
  | 3 => "function"
  | 4 => "table"
  | 5 => "memory"
  | 6 => "global"
  | 7 => "export"
  | 8 => "start"
  | 9 => "element"
  | 10 => "code"
  | 11 => "data"
  | 12 => "data_count"
  | _ => "unknown"

/-- The place of a name in the format. -/
inductive NamePlace where
  | importModule (position : Nat)
  | importName (position : Nat)
  | exportName (position : Nat)
deriving DecidableEq, Repr

def NamePlace.text : NamePlace → String
  | .importModule i => s!"import[{i}] module"
  | .importName i => s!"import[{i}] name"
  | .exportName i => s!"export[{i}] name"

/-- A part of the format inside which a fault is met. -/
inductive Part where
  | sectionSize (id : UInt8)
  | contents (id : UInt8)
  | vectorSize
  | type (position : Nat)
  | typeForm
  | paramCount
  | params
  | resultCount
  | results
  | name (place : NamePlace)
  | importKind (position : Nat) (module name : String)
  | importDesc (position : Nat) (kind : ExternKind) (module name : String)
  | typeIndex
  | table
  | tableForm
  | limits
  | limitsForm
  | limitsMin
  | limitsMax
  | memory
  | global (position : Nat)
  | globalValueType
  | mutability
  | exportKind (position : Nat)
  | exportIndex (position : Nat)
  | startIndex
  | element
  | elementForm
  | elementTable
  | elementOffset
  | elementKind
  | functionIndex
  | code (position : Nat)
  | codeSize
  | localsCount
  | localCount
  | localType
  | body
  | dataSegment
  | dataForm
  | dataMemory
  | dataOffset
  | dataLength
  | constOpcode
  | constValue
  | constEnd
deriving DecidableEq, Repr

namespace Part

/-- How the text of a fault inside the part starts. -/
def text : Part → String
  | .sectionSize id => s!"get size of section {sectionName id}"
  | .contents id => s!"section {sectionName id}"
  | .vectorSize => "get size of vector"
  | .type i => s!"read {i}-th type"
  | .typeForm => "read leading byte"
  | .paramCount => "could not read parameter count"
  | .params => "could not read parameter types"
  | .resultCount => "could not read result count"
  | .results => "could not read result types"
  | .name place => s!"failed to read {place.text} size"
  | .importKind i mod item => s!"import[{i}] {mod}.{item}: error decoding type"
  | .importDesc i kind mod item => s!"import[{i}] {kind.name}[{mod}.{item}]"
  | .typeIndex => "get type index"
  | .table => "read table"
  | .tableForm => "read leading byte"
  | .limits => "read limits"
  | .limitsForm => "read leading byte"
  | .limitsMin => "read min of limit"
  | .limitsMax => "read max of limit"
  | .memory => "read memory"
  | .global i => s!"global[{i}]"
  | .globalValueType => "read value type"
  | .mutability => "read mutablity"
  | .exportKind i => s!"error decoding export[{i}] kind"
  | .exportIndex i => s!"error decoding export[{i}] index"
  | .startIndex => "get function index"
  | .element => "read element"
  | .elementForm => "read element prefix"
  | .elementTable => "read table index"
  | .elementOffset => "read expr for offset"
  | .elementKind => "read element kind"
  | .functionIndex => "read function index"
  | .code i => s!"read {i}-th code segment"
  | .codeSize => "get the size of code"
  | .localsCount => "get the size locals"
  | .localCount => "read n of locals"
  | .localType => "read type of local"
  | .body => "read body"
  | .dataSegment => "read data segment"
  | .dataForm => "read data segment prefix"
  | .dataMemory => "read memory index"
  | .dataOffset => "read offset expression"
  | .dataLength => "get the size of vector"
  | .constOpcode => "read opcode"
  | .constValue => "read value"
  | .constEnd => "look for end opcode"

/-- The part quotes the text of the fault inside it, and drops its class. -/
def quotes : Part → Bool
  | .sectionSize _ | .tableForm | .limitsForm | .limitsMin | .limitsMax | .localsCount
  | .localCount | .localType | .dataMemory | .dataOffset | .dataLength | .constOpcode
  | .constValue | .constEnd => true
  | _ => false

end Part

/-- A byte where the format allows others only. -/
inductive ByteError where
  | typeForm
  | valueType
  | importKind
  | exportKind
  | tableForm
  | mutability
deriving DecidableEq, Repr

def ByteError.text (byte : UInt8) : ByteError → String
  | .typeForm => s!"invalid byte: {Text.hex byte.toNat} != 0x60"
  | .valueType => s!"invalid byte: invalid value type: {Text.hex byte.toNat}"
  | .importKind => s!"invalid byte: invalid byte for importdesc: {Text.hex byte.toNat}"
  | .exportKind => s!"invalid byte: invalid byte for exportdesc: {Text.hex byte.toNat}"
  | .tableForm =>
    s!"invalid byte: invalid element type {Text.hex byte.toNat} != funcref({ValueType.funcref.hex})"
  | .mutability => s!"invalid byte for mutability: {Text.hex byte.toNat} != 0x00 or 0x01"

/-- What is counted or sized beyond the bytes that remain. -/
inductive Extent where
  | contents (id : UInt8)
  | vector
  | valueTypes
  | name (place : NamePlace)
  | functionIndices
  | data
deriving DecidableEq, Repr

def Extent.text (size remaining : Nat) : Extent → String
  | .contents id =>
    s!"section {sectionName id} of size {size} exceeds the remaining {remaining} bytes"
  | .vector => s!"vector of size {size} exceeds the remaining {remaining} bytes"
  | .valueTypes => s!"{size} value types exceed the remaining {remaining} bytes"
  | .name place => s!"{place.text} of size {size} exceeds the remaining {remaining} bytes"
  | .functionIndices => s!"{size} function indexes exceed the remaining {remaining} bytes"
  | .data => s!"data of size {size} exceeds the remaining {remaining} bytes"

/-- Why bytes are not a module. -/
inductive Fault where
  | magic
  | version
  /-- The bytes end where something has to follow. -/
  | endOfInput
  /-- The bytes end inside something. -/
  | cutShort
  | number (cause : Leb128.Error)
  | byte (byte : UInt8) (error : ByteError)
  | exceeds (what : Extent) (size remaining : Nat)
  | sectionOrder (id : UInt8)
  | sectionId
  | sectionLength (expected actual : Nat)
  | unpairedCode (functions code : Nat)
  | notUtf8 (place : NamePlace)
  | limitsForm (byte : UInt8)
  | constOpcode (opcode : UInt8)
  | constUnterminated
  | elementForm (form : UInt32)
  | elementKind (byte : UInt8)
  | dataForm (form : UInt32)
  | localType (byte : UInt8)
  | tooManyLocals (count : Nat)
  | bodyUnterminated
  | inside (part : Part) (cause : Fault)
deriving DecidableEq, Repr

namespace Fault

def message : Fault → String
  | .magic => "invalid magic number"
  | .version => "invalid version header"
  | .endOfInput => "EOF"
  | .cutShort => "unexpected EOF"
  | .number cause => cause.message
  | .byte b error => error.text b
  | .exceeds what size remaining => what.text size remaining
  | .sectionOrder id => s!"section {sectionName id} is out of order"
  | .sectionId => "invalid section id"
  | .sectionLength expected actual =>
    s!"invalid section length: expected to be {expected} but got {actual}"
  | .unpairedCode functions code =>
    s!"function and code section have inconsistent lengths: {functions} != {code}"
  | .notUtf8 place => s!"{place.text} is not valid UTF-8"
  | .limitsForm b => s!"invalid byte for limits: {Text.hex b.toNat} != 0x00 or 0x01"
  | .constOpcode opcode =>
    s!"invalid byte for const expression opt code: {Text.hex opcode.toNat}"
  | .constUnterminated => "constant expression has been not terminated"
  | .elementForm form => s!"unsupported encoding: element segment prefix {form}"
  | .elementKind b => s!"element kind must be zero but was {Text.hex b.toNat}"
  | .dataForm form => s!"unsupported encoding: data segment prefix {form}"
  | .localType b => s!"invalid local type: {Text.hex b.toNat}"
  | .tooManyLocals count => s!"too many locals: {count}"
  | .bodyUnterminated => "expr not end with OpcodeEnd"
  | .inside part cause => s!"{part.text}: {cause.message}"

def classes : Fault → List ErrorClass
  | .magic => [.invalidMagic]
  | .version => [.invalidVersion]
  | .byte .. => [.invalidByte]
  | .sectionId => [.invalidSection]
  | .elementForm _ | .dataForm _ => [.unsupportedEncoding]
  | .inside part cause => if part.quotes then [] else cause.classes
  | .endOfInput | .cutShort | .number _ | .exceeds .. | .sectionOrder _ | .sectionLength ..
  | .unpairedCode .. | .notUtf8 _ | .limitsForm _ | .constOpcode _ | .constUnterminated
  | .elementKind _ | .localType _ | .tooManyLocals _ | .bodyUnterminated => []

end Fault

end FlatWasm.Binary
