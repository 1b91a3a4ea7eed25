import FlatWasm.Store.Segment
import FlatWasm.Text.FixedPoint

/-!
# Globals

A global is a linear store of exactly one value, together with its type. It is made without a value, and gets one
when it is allocated: the segment with its initial value is then applied to it.
-/

namespace FlatWasm

/-- A global variable. -/
structure GlobalCell where
  store : Linear
  type : GlobalType
deriving DecidableEq, Repr

/-- What is written into a global to give it a value. -/
def Segment.ofGlobal (type : GlobalType) (value : UInt64) : Except Defect Segment := do
  let width ← type.valueType.width
  return { payload := littleEndian width.toNat value.toNat, offset := ⟨.const 0, 1⟩ }

namespace GlobalCell

/-- A global that could not be allocated. -/
inductive Error where
  | bounds (cause : BoundsError)
  | offset (cause : OffsetError)
  /-- A value that is wider than the type. -/
  | value (needed available : Nat)
deriving DecidableEq, Repr

namespace Error

def message : Error → String
  | .bounds cause => s!"global: {cause.message}"
  | .offset cause => cause.message
  | .value needed available => s!"global: default value needs {needed} bytes, have {available}"

def classes : Error → List ErrorClass
  | .offset cause => cause.classes
  | .bounds _ | .value .. => []

end Error

/-- A global without a value. -/
def empty (type : GlobalType) : Except Defect GlobalCell := do
  return { store := { unit := ← type.valueType.width, min := 1, max := 1 }, type }

/-- The width of the value in bytes. -/
def width (g : GlobalCell) : Nat :=
  if g.store.unit = 4 then 4 else 8

/-- The value; zero before the global has one. -/
def value (g : GlobalCell) : UInt64 :=
  match g.store.bytesAt? 0 g.width with
  | some bytes => UInt64.ofNat (ofLittleEndian bytes)
  | none => 0

/-- Replaces the value, if the global has one. Whether it may change is not asked here. -/
def set (g : GlobalCell) (v : UInt64) : GlobalCell :=
  match g.store.put? 0 (littleEndian g.width v.toNat) with
  | some store => { g with store }
  | none => g

/-- The value as text, such as `global(7)`. Integers are shown without sign. -/
def text (g : GlobalCell) : Except Defect String :=
  let t := g.type.valueType
  let inParens (s : String) : String := s!"global({s})"
  if t = .i32 ∨ t = .i64 then .ok (inParens (toString g.value.toNat))
  else if t = .f32 then
    .ok (inParens (Text.FloatFormat.binary32.decode (Bits.low32 g.value).toNat).text)
  else if t = .f64 then .ok (inParens (Text.FloatFormat.binary64.decode g.value.toNat).text)
  else .error (.unprintableGlobal t.code)

/-- Gives the global its size and writes the segment with its initial value. What was done before a failure
stays. -/
def allocate (g : GlobalCell) (init : Segment) (globals : GlobalReader) :
    GlobalCell × Except (Failure Error) Unit :=
  match g.store.growStrict 1 false with
  | .error e => (g, .error (e.map .bounds))
  | .ok store =>
    let g := { g with store }
    match store.apply [init] globals with
    | .error e => (g, refuse (.offset e))
    | .ok (.needs length) => (g, refuse (.value length store.length))
    | .ok (.written store) => ({ g with store }, .ok ())

end GlobalCell

end FlatWasm
