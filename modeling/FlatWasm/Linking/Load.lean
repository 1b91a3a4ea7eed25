import FlatWasm.Store.Segment

/-!
# Loading segments

All segments of a store are written together. If they do not fit, the store grows by as many units as the last of
them needs, within its maximum, and they are written then; unless growth is not wanted, or not possible, and then
the store stays as it was.
-/

namespace FlatWasm

/-- Why segments are not written. -/
inductive LoadError where
  | offset (cause : OffsetError)
  /-- They do not fit, and the store is not to grow. -/
  | doesNotFit (needed available : Nat)
  /-- They end beyond what any store can hold. -/
  | tooLong (needed : Nat)
  /-- The store cannot grow to the number of units that they need. -/
  | cannotGrow (before : UInt32) (after : Nat) (result : GrowResult)
  /-- They do not fit even then. -/
  | stillTooShort (needed : Nat)
deriving DecidableEq, Repr

namespace LoadError

/-- The text of an error about the segments of `store`. -/
def message (store : String) : LoadError → String
  | .offset cause => s!"{store}: {cause.message}"
  | .doesNotFit needed available =>
    s!"segment out of bounds: {store} needs {needed} bytes, but has {available}"
  | .tooLong needed => s!"segment out of bounds: {store} needs {needed} bytes"
  | .cannotGrow before after result =>
    s!"segment out of bounds: {store} can't grow from {before} to {after}: {result.name}"
  | .stillTooShort needed =>
    s!"segment out of bounds: {store} needs {needed} bytes after growing"

def classes : LoadError → List ErrorClass
  | .offset cause => cause.classes
  | .doesNotFit .. | .tooLong _ | .cannotGrow .. | .stillTooShort _ => [.segmentOutOfBounds]

end LoadError

/-- A change of size, in units. -/
structure Growth where
  before : UInt32
  after : Nat
deriving DecidableEq, Repr

namespace Linear

/-- How many units a length takes. -/
def unitsFor (s : Linear) (length : Nat) : Nat :=
  (length + s.unit.toNat - 1) / s.unit.toNat

/-- Grows to hold `needed` bytes. -/
def growFor (s : Linear) (needed : Nat) : Except (Failure LoadError) (Growth × Linear) := do
  let before ← orDefect s.size
  let after := s.unitsFor needed
  if 0xffffffff < after then refuse (.tooLong needed)
  match ← orDefect (s.grow (UInt32.ofNat after)) with
  | (.grown, s) => return ({ before, after }, s)
  | (result, _) => refuse (.cannotGrow before after result)

/-- Writes segments. The answer says whether the store grew. -/
def load (s : Linear) (segments : List Segment) (globals : GlobalReader) (mayGrow : Bool) :
    Except (Failure LoadError) (Option Growth × Linear) := do
  if segments.isEmpty then return (none, s)
  match ← orRefuse .offset (s.apply segments globals) with
  | .written s => return (none, s)
  | .needs needed =>
    if !mayGrow then refuse (.doesNotFit needed s.length)
    let (growth, s) ← s.growFor needed
    match ← orRefuse .offset (s.apply segments globals) with
    | .written s => return (some growth, s)
    | .needs needed => refuse (.stillTooShort needed)

end Linear

end FlatWasm
