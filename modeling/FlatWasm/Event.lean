import FlatWasm.Flat.Listing
import FlatWasm.Function

/-!
# Events

What is worth a line in a log while a module is compiled and instantiated. An event has a message and named
fields, in the order in which they are written.
-/

namespace FlatWasm

/-- The value of a field of an event. -/
inductive FieldValue where
  | number (value : Nat)
  | text (value : String)
  | flag (value : Bool)
deriving DecidableEq, Repr

/-- Something that happened. -/
inductive Event where
  /-- An instruction is about to be checked. -/
  | instruction (entry : Subject.TraceEntry)
  /-- A body of `size` bytes became code. -/
  | code (index : UInt32) (size : Nat) (bytes : List UInt8)
  /-- A function is done: the sizes of its body and of its code. -/
  | lowered (index : UInt32) (size codeSize : Nat)
  /-- A store grew to fit its segments. -/
  | grew (kind : String) (index : Nat) (before after : Nat)
  | instantiated (functions imports memories tables globals : Nat)

namespace Event

def message : Event → String
  | .instruction _ => "handling instruction"
  | .code .. | .lowered .. => "transpiled function"
  | .grew .. => "grew store for segments"
  | .instantiated .. => "instantiated module"

def fields : Event → List (String × FieldValue)
  | .instruction entry =>
    [("op", .text (Opcode.name entry.opcode)), ("live", .flag entry.live),
     ("stack", .text entry.operands)]
  | .code index size bytes =>
    [("index", .number index.toNat), ("in", .number size), ("out", .number bytes.length),
     ("code", .text (Flat.format bytes))]
  | .lowered index size codeSize =>
    [("index", .number index.toNat), ("raw", .number size), ("transpiled", .number codeSize)]
  | .grew kind index before after =>
    [("kind", .text kind), ("index", .number index), ("from", .number before),
     ("to", .number after)]
  | .instantiated functions imports memories tables globals =>
    [("functions", .number functions), ("imports", .number imports), ("memories", .number memories),
     ("tables", .number tables), ("globals", .number globals)]

end Event

end FlatWasm
