import FlatWasm.Store.Linear
import FlatWasm.ValueType

/-!
# Memories

A memory is a linear store of pages of 65536 bytes.
-/

namespace FlatWasm

/-- The length of a page in bytes. -/
def pageSize : UInt32 := 65536

/-- The number of bytes in some pages. -/
def pagesToBytes (pages : UInt32) : UInt64 :=
  pages.toUInt64 * pageSize.toUInt64

/-- The size of some pages in the greatest fitting unit. Sizes are counted in words of 32 bits, so from `2 ^ 26`
pages on only the rest is shown. -/
def pagesText (pages : UInt32) : String :=
  let kibi := pages * 64
  let mebi := kibi / 1024
  let gibi := mebi / 1024
  if kibi < 1024 then s!"{kibi} Ki"
  else if mebi < 1024 then s!"{mebi} Mi"
  else if gibi < 1024 then s!"{gibi} Gi"
  else s!"{gibi / 1024} Ti"

/-- A memory. -/
structure Memory where
  store : Linear
deriving DecidableEq, Repr

namespace Memory

/-- A memory that could not be allocated. -/
structure Error where
  bounds : BoundsError
deriving DecidableEq, Repr

def Error.message (e : Error) : String :=
  s!"memory: {e.bounds.message}"

/-- A memory of its least size, with at most `ceiling` pages unless it declares another maximum. -/
def allocate (limits : Limits) (ceiling : UInt32) : Except (Failure Error) Memory :=
  let empty : Linear := { unit := pageSize, min := limits.min, max := limits.maxOr ceiling }
  match empty.growStrict limits.min true with
  | .ok store => .ok { store }
  | .error e => .error (e.map Error.mk)

/-- The number of pages. -/
def pages (m : Memory) : UInt32 :=
  UInt32.ofNat (m.store.length / 65536)

/-- Adds pages, and answers with the number of pages before. To add none always succeeds. -/
def grow? (m : Memory) (delta : UInt32) : Except Defect (Option (UInt32 × Memory)) :=
  let previous := m.pages
  let pages := previous.toNat + delta.toNat
  if delta = 0 then .ok (some (previous, m))
  else if m.store.max.toNat < pages then .ok none
  else
    match m.store.grow (UInt32.ofNat pages) with
    | .ok (.grown, store) => .ok (some (previous, { store }))
    | .ok _ => .ok none
    | .error d => .error d

end Memory

end FlatWasm
