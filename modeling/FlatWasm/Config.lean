import FlatWasm.ValueType

/-!
# Configuration

How many pages a memory may have, and what happens when a segment does not fit its store.
-/

namespace FlatWasm

/-- What a loader is told. -/
structure Config where
  /-- No memory is declared with more pages, and one that declares no maximum does not grow beyond. -/
  maxPages : UInt32 := Limits.maxPages
  /-- A store grows to fit its segments. -/
  growsForSegments : Bool := true
deriving DecidableEq, Repr

/-- Lowers the number of pages. It is never above the number that any memory can have. -/
def Config.withMaxPages (c : Config) (pages : UInt32) : Config :=
  { c with maxPages := min pages Limits.maxPages }

end FlatWasm
