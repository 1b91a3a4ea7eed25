import FlatWasm.Opcode
import FlatWasm.ValueType

/-!
# Operators

The instructions that source code and flat code have in common: what they do to values does not depend on the
form of control around them. Numeric operators keep their byte; loads and stores are told apart by how many
bytes they move and how a load extends them.
-/

namespace FlatWasm

/-! ## Numeric operators -/

/-- A comparison, arithmetic operator, conversion or sign extension, by its byte in the binary format. -/
structure NumericOp where
  code : UInt8
  inRange : Opcode.firstNumeric ≤ code ∧ code ≤ Opcode.lastNumeric
deriving DecidableEq, Repr

namespace FuncType

/-- The type of an operator of one operand. -/
def unary (operand result : ValueType) : FuncType :=
  { params := [operand], results := [result] }

/-- The type of an operator of two operands of one type. -/
def binary (operand result : ValueType) : FuncType :=
  { params := [operand, operand], results := [result] }

end FuncType

open ValueType FuncType in
/-- The types of the numeric operators. They stand in runs, of which each is listed with its last byte. -/
def numericTypes : List (Nat × FuncType) :=
  [(0x45, unary i32 i32), (0x4f, binary i32 i32), (0x50, unary i64 i32), (0x5a, binary i64 i32),
   (0x60, binary f32 i32), (0x66, binary f64 i32), (0x69, unary i32 i32), (0x78, binary i32 i32),
   (0x7b, unary i64 i64), (0x8a, binary i64 i64), (0x91, unary f32 f32), (0x98, binary f32 f32),
   (0x9f, unary f64 f64), (0xa6, binary f64 f64), (0xa7, unary i64 i32), (0xa9, unary f32 i32),
   (0xab, unary f64 i32), (0xad, unary i32 i64), (0xaf, unary f32 i64), (0xb1, unary f64 i64),
   (0xb3, unary i32 f32), (0xb5, unary i64 f32), (0xb6, unary f64 f32), (0xb8, unary i32 f64),
   (0xba, unary i64 f64), (0xbb, unary f32 f64), (0xbc, unary f32 i32), (0xbd, unary f64 i64),
   (0xbe, unary i32 f32), (0xbf, unary i64 f64), (0xc1, unary i32 i32), (0xc4, unary i64 i64)]

/-- What a numeric operator pops and pushes. -/
def NumericOp.type (op : NumericOp) : FuncType :=
  ((numericTypes.find? fun (last, _) => op.code.toNat ≤ last).map Prod.snd).getD {}

/-! ## Saturating truncations -/

/-- A saturating truncation, by its number after the byte `0xfc`. -/
abbrev Truncation := Fin 8

/-- What a truncation pops and pushes: two of each type, the first signed and the second unsigned. -/
def Truncation.type (op : Truncation) : FuncType :=
  match op.val / 2 with
  | 0 => .unary .f32 .i32
  | 1 => .unary .f64 .i32
  | 2 => .unary .f32 .i64
  | _ => .unary .f64 .i64

/-! ## Loads and stores -/

/-- How many bits a load takes, and how it extends them: with zeros, or with the sign to 32 or 64 bits. -/
inductive LoadKind where
  | zero8 | sign8to32 | sign8to64 | zero16 | sign16to32 | sign16to64 | zero32 | sign32to64 | full64
deriving DecidableEq, Repr

namespace LoadKind

/-- The loads in order. -/
def all : List LoadKind :=
  [.zero8, .sign8to32, .sign8to64, .zero16, .sign16to32, .sign16to64, .zero32, .sign32to64, .full64]

/-- The position of a load among the loads. -/
def index : LoadKind → UInt8
  | .zero8 => 0
  | .sign8to32 => 1
  | .sign8to64 => 2
  | .zero16 => 3
  | .sign16to32 => 4
  | .sign16to64 => 5
  | .zero32 => 6
  | .sign32to64 => 7
  | .full64 => 8

/-- The number of bytes that are loaded. -/
def bytes : LoadKind → Nat
  | .zero8 | .sign8to32 | .sign8to64 => 1
  | .zero16 | .sign16to32 | .sign16to64 => 2
  | .zero32 | .sign32to64 => 4
  | .full64 => 8

end LoadKind

/-- How many bits a store writes. -/
inductive StoreWidth where
  | bits8 | bits16 | bits32 | bits64
deriving DecidableEq, Repr

namespace StoreWidth

/-- The stores in order. -/
def all : List StoreWidth :=
  [.bits8, .bits16, .bits32, .bits64]

/-- The position of a store among the stores. -/
def index : StoreWidth → UInt8
  | .bits8 => 0
  | .bits16 => 1
  | .bits32 => 2
  | .bits64 => 3

/-- The number of bytes that are stored. -/
def bytes : StoreWidth → Nat
  | .bits8 => 1
  | .bits16 => 2
  | .bits32 => 4
  | .bits64 => 8

end StoreWidth

/-- A load of a value of a type, or a store of one. -/
inductive Access where
  | load (type : ValueType) (kind : LoadKind)
  | store (type : ValueType) (width : StoreWidth)
deriving DecidableEq, Repr

namespace Access

/-- The number of bytes that are moved. -/
def bytes : Access → Nat
  | .load _ kind => kind.bytes
  | .store _ width => width.bytes

/-- Whether an access may declare an alignment of `2 ^ exponent` bytes: at most the number of bytes that it
moves. -/
def allowsAlignment (a : Access) (exponent : UInt32) : Bool :=
  exponent ≤ 3 && 1 <<< exponent.toNat ≤ a.bytes

/-- What an access pops and pushes: the address is below the value that is stored. -/
def type : Access → FuncType
  | .load type _ => { params := [.i32], results := [type] }
  | .store type _ => { params := [.i32, type] }

/-- The first opcode of the loads and stores. -/
def firstOpcode : Nat := 0x28

/-- The loads and stores of the binary format, in the order of their opcodes. -/
def all : List Access :=
  [.load .i32 .zero32, .load .i64 .full64, .load .f32 .zero32, .load .f64 .full64,
   .load .i32 .sign8to32, .load .i32 .zero8, .load .i32 .sign16to32, .load .i32 .zero16,
   .load .i64 .sign8to64, .load .i64 .zero8, .load .i64 .sign16to64, .load .i64 .zero16,
   .load .i64 .sign32to64, .load .i64 .zero32,
   .store .i32 .bits32, .store .i64 .bits64, .store .f32 .bits32, .store .f64 .bits64,
   .store .i32 .bits8, .store .i32 .bits16, .store .i64 .bits8, .store .i64 .bits16,
   .store .i64 .bits32]

/-- The load or store of an opcode. -/
def ofOpcode? (op : UInt8) : Option Access :=
  if firstOpcode ≤ op.toNat then all[op.toNat - firstOpcode]? else none

end Access

end FlatWasm
