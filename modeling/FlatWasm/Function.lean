import FlatWasm.Lowering.Run

/-!
# Functions

A function that the module defines: its declared type, its locals, and a body that is first raw and then, once and
for all, flat code.
-/

namespace FlatWasm

/-- The instructions of a function: as the module has them, or as an interpreter runs them. -/
inductive Body where
  | raw (bytes : List UInt8)
  | lowered (bytes : List UInt8)
deriving DecidableEq, Repr

namespace Body

def bytes : Body → List UInt8
  | .raw bytes | .lowered bytes => bytes

def isLowered : Body → Bool
  | .raw _ => false
  | .lowered _ => true

end Body

/-- A function that the module defines. -/
structure Function where
  /-- Its place among all functions, imports first. -/
  index : UInt32
  type : FuncType
  /-- The declared locals, without the parameters. -/
  locals : Locals
  body : Body
deriving DecidableEq, Repr

namespace Function

/-- Why a body is not replaced. -/
inductive Error where
  | alreadyLowered
  | invalid (cause : ValidationError)
deriving DecidableEq, Repr

namespace Error

def message : Error → String
  | .alreadyLowered => "function already transpiled"
  | .invalid cause => cause.message

def classes : Error → List ErrorClass
  | .alreadyLowered => [.alreadyLowered]
  | .invalid cause => cause.cause.classes

end Error

/-- The types of the parameters and locals, by their index. -/
def localTypes (f : Function) : Locals :=
  f.locals.prependAll f.type.params

/-- The type of a local; parameters come first. -/
def localType? (f : Function) (i : UInt32) : Option ValueType :=
  f.localTypes.get? i.toNat

/-- How many parameters and locals there are. -/
def localCount (f : Function) : Nat :=
  f.localTypes.length

/-- Replaces a raw body by flat code. -/
def replace (f : Function) (code : List UInt8) : Except Error Function :=
  match f.body with
  | .raw _ => .ok { f with body := .lowered code }
  | .lowered _ => .error .alreadyLowered

/-- The function as its own body refers to it. -/
def subject (f : Function) (space : IndexSpace) : Subject :=
  { index := f.index
    scope := { space, locals := f.localTypes, results := f.type.results }
    size := f.body.bytes.length }

/-- The code that comes before the body: locals start at zero. -/
def prologue (f : Function) : Lowering.State :=
  if f.locals.isEmpty then {}
  else Lowering.State.emit {} (.locals (UInt32.ofNat f.locals.length))

/-- The flat code of a body. -/
def code (f : Function) (space : IndexSpace) (body : List UInt8) :
    Except (Failure ValidationError) (List UInt8) := do
  let code ← (f.subject space).lower (.initial f.type.results) f.prologue body
  return code.bytes

/-- Checks a raw body and replaces it by flat code. -/
def lower (f : Function) (space : IndexSpace) : Except (Failure Error) Function :=
  match f.body with
  | .lowered _ => refuse .alreadyLowered
  | .raw body => do
    let code ← (f.code space body).mapError (Failure.map .invalid)
    return { f with body := .lowered code }

/-- The instructions of a raw body as they are checked. -/
def trace (f : Function) (space : IndexSpace) : List Subject.TraceEntry :=
  match f.body with
  | .lowered _ => []
  | .raw body => (f.subject space).trace (.initial f.type.results) body

end Function

end FlatWasm
