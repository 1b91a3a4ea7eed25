import FlatWasm.Store.Segment

/-!
# Tables

A table is a linear store of words, one for each entry. An entry that refers to a function holds the index of the
function plus one, so a zeroed entry refers to none. The sum is taken in words: the greatest index gives an entry
that refers to no function.
-/

namespace FlatWasm

/-- The width of an entry in bytes. -/
def entrySize : UInt32 := 4

/-- A table. -/
structure Table where
  store : Linear
deriving DecidableEq, Repr

namespace Table

/-- A table that could not be allocated. -/
structure Error where
  bounds : BoundsError
deriving DecidableEq, Repr

def Error.message (e : Error) : String :=
  s!"table: {e.bounds.message}"

/-- A table of its least size, all of whose entries refer to no function. -/
def allocate (limits : Limits) : Except (Failure Error) Table :=
  let empty : Linear := { unit := entrySize, min := limits.min, max := limits.maxOr Limits.maxEntries }
  match empty.growStrict limits.min true with
  | .ok store => .ok { store }
  | .error e => .error (e.map Error.mk)

/-- The number of entries. -/
def length (t : Table) : UInt32 :=
  UInt32.ofNat (t.store.length / entrySize.toNat)

/-- The position of an entry in the store. -/
def positionOf (i : UInt32) : Nat :=
  i.toNat * entrySize.toNat

/-- The word of an entry that refers to a function. -/
def slotOf (function : UInt32) : UInt32 :=
  function + 1

/-- The word of an entry. -/
def slot? (t : Table) (i : UInt32) : Option UInt32 :=
  (t.store.bytesAt? (positionOf i) 4).map fun bytes => UInt32.ofNat (ofLittleEndian bytes)

/-- The function that an entry refers to, if the entry exists and refers to one. -/
def get? (t : Table) (i : UInt32) : Option UInt32 :=
  (t.slot? i).bind fun slot => if slot = 0 then none else some (slot - 1)

/-- Writes the word of an entry; none if there is no such entry. -/
def setSlot? (t : Table) (i slot : UInt32) : Option Table :=
  (t.store.put? (positionOf i) (word32 slot)).map Table.mk

/-- Lets an entry refer to a function; none if there is no such entry. -/
def set? (t : Table) (i function : UInt32) : Option Table :=
  t.setSlot? i (slotOf function)

/-- Lets an entry refer to no function; none if there is no such entry. -/
def clear? (t : Table) (i : UInt32) : Option Table :=
  t.setSlot? i 0

/-- Adds entries, and answers with the number of entries before. To add none always succeeds. -/
def grow? (t : Table) (delta : UInt32) : Except Defect (Option (UInt32 × Table)) :=
  let previous := t.length
  let entries := previous.toNat + delta.toNat
  if delta = 0 then .ok (some (previous, t))
  else if t.store.max.toNat < entries then .ok none
  else
    match t.store.grow (UInt32.ofNat entries) with
    | .ok (.grown, store) => .ok (some (previous, { store }))
    | .ok _ => .ok none
    | .error d => .error d

end Table

/-- What an element segment writes into its table. -/
def Segment.ofElements (e : ElementSegment) : Except Segment.Error Segment :=
  match Offset.ofExpr e.offset entrySize with
  | .ok offset => .ok { payload := e.init.flatMap fun f => word32 (Table.slotOf f), offset }
  | .error cause => .error (.element cause)

end FlatWasm
