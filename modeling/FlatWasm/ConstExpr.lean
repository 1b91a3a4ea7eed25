import FlatWasm.Bits
import FlatWasm.ByteOrder
import FlatWasm.IndexSpace
import FlatWasm.Leb128
import FlatWasm.Opcode

/-!
# Constant expressions

The initial value of a global and the offset of a segment are written as one instruction: a constant, or
`global.get` of an imported global that cannot change. A constant expression is read in three ways. `immediate`
is the number it carries, `check` asks whether it may stand where a value of a type is expected, and `eval` is
its value once the imported globals have one.
-/

namespace FlatWasm

/-- Why the value of a global is not to be had. -/
inductive GlobalError where
  /-- There is no value for the global. -/
  | unknown
  | outOfRange (cause : IndexSpace.Error)
  /-- The global has no instance yet. -/
  | uninitialized (index : UInt32)
  /-- An offset is read from a global that is not an `i32`. -/
  | offsetType (type : ValueType)
deriving DecidableEq, Repr

namespace GlobalError

def message : GlobalError → String
  | .unknown => "unknown global"
  | .outOfRange cause => cause.message
  | .uninitialized index => s!"global[{index}] isn't initialized yet"
  | .offsetType type => s!"offset must be i32, but was {type.name}"

def classes : GlobalError → List ErrorClass
  | .outOfRange cause => cause.classes
  | .unknown | .uninitialized _ | .offsetType _ => []

end GlobalError

namespace ConstExpr

/-- What is wrong with a constant expression. -/
inductive Error where
  | missing
  | immediate (what : String) (cause : Leb128.Error)
  /-- A floating-point constant of too few bytes. -/
  | shortImmediate (what : String) (length : Nat)
  | opcode (code : UInt8)
  | index (cause : IndexSpace.Error)
  /-- `global.get` of a global that the module defines. -/
  | notImported (index : Nat)
  /-- `global.get` of a global that can change. -/
  | notConstant (index : Nat)
  | typeMismatch (expected actual : ValueType)
  /-- The value of the global is not to be had. -/
  | global (cause : GlobalError)
deriving DecidableEq, Repr

namespace Error

def message : Error → String
  | .missing => "missing const expression"
  | .immediate what cause => s!"read {what}: {cause.message}"
  | .shortImmediate what length => s!"read {what}: {length} bytes"
  | .opcode code => s!"invalid opcode for const expression: {Text.hex code.toNat}"
  | .index cause => cause.message
  | .notImported i => s!"global.get {i} in const expression must read an imported global"
  | .notConstant i => s!"global.get {i} in const expression must read an immutable global"
  | .typeMismatch expected actual =>
    s!"const expression type mismatch: expected {expected.name}, but was {actual.name}"
  | .global cause => cause.message

def classes : Error → List ErrorClass
  | .index cause => cause.classes
  | .global cause => cause.classes
  | .missing | .immediate .. | .shortImmediate .. | .opcode _ | .notImported _ | .notConstant _
  | .typeMismatch .. => []

end Error

/-- The first `n` bytes of a floating-point immediate as a word. -/
def floatBits (what : String) (n : Nat) (data : List UInt8) : Except Error UInt64 :=
  if data.length < n then .error (.shortImmediate what data.length)
  else .ok (UInt64.ofNat (ofLittleEndian (data.take n)))

/-- The number that the immediate carries: the value of a constant, the global's index of a `global.get`. -/
def immediate (e : ConstExpr) : Except Error UInt64 :=
  if e.opcode = Opcode.i32Const then
    match Leb128.loadSigned 32 e.data with
    | .ok (v, _) => .ok (Bits.ofInt 32 v)
    | .error cause => .error (.immediate "i32.const" cause)
  else if e.opcode = Opcode.i64Const then
    match Leb128.loadSigned 64 e.data with
    | .ok (v, _) => .ok (Bits.ofInt 64 v)
    | .error cause => .error (.immediate "i64.const" cause)
  else if e.opcode = Opcode.f32Const then floatBits "f32.const" 4 e.data
  else if e.opcode = Opcode.f64Const then floatBits "f64.const" 8 e.data
  else if e.opcode = Opcode.globalGet then
    match Leb128.loadUnsigned 32 e.data with
    | .ok (v, _) => .ok (UInt64.ofNat v)
    | .error cause => .error (.immediate "global index" cause)
  else .error (.opcode e.opcode)

/-- The type of a constant, by its opcode. -/
def constantType? (opcode : UInt8) : Option ValueType :=
  if opcode = Opcode.i32Const then some .i32
  else if opcode = Opcode.i64Const then some .i64
  else if opcode = Opcode.f32Const then some .f32
  else if opcode = Opcode.f64Const then some .f64
  else none

/-- The type of the value that an expression with immediate `imm` has. A `global.get` has to read an imported
global that cannot change: no other global has its value yet when initializers are evaluated. -/
def typeOf (opcode : UInt8) (imm : UInt64) (space : IndexSpace) : Except (Failure Error) ValueType :=
  match constantType? opcode with
  | some t => .ok t
  | none => do
    let (loc, type) ← orRefuse .index (space.global imm.toUInt32)
    if loc.origin ≠ .imported then refuse (.notImported imm.toNat)
    let type ← present type
    if type.isMutable then refuse (.notConstant imm.toNat)
    return type.valueType

/-- The expression may stand where a value of type `expected` is asked for. -/
def check (e : Option ConstExpr) (expected : ValueType) (space : IndexSpace) :
    Except (Failure Error) Unit := do
  match e with
  | none => refuse .missing
  | some e =>
    let imm ← orRefuse id e.immediate
    let actual ← typeOf e.opcode imm space
    if actual ≠ expected then refuse (.typeMismatch expected actual)

/-- The value of the expression, where `globals` reads the imported globals. -/
def eval (e : ConstExpr) (globals : UInt32 → Except GlobalError UInt64) : Except Error UInt64 := do
  let imm ← e.immediate
  if e.opcode = Opcode.globalGet then (globals imm.toUInt32).mapError .global else return imm

end ConstExpr

end FlatWasm
