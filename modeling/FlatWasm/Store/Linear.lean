import FlatWasm.ByteOrder
import FlatWasm.Defect
import FlatWasm.Store.Sparse

/-!
# Linear stores

Memories, tables and globals are byte strings that grow in whole units: pages, entries, one value. A linear store
is such a byte string, with the length of a unit and the least and greatest number of units. It starts empty, and
the first growth brings it to a size within its bounds; what is added is zero, and what was there stays.

## Why an access can be a defect

Offsets are words of 64 bits, and so is the sum of an offset and a length that is compared with the size of the
store. For offsets near `2 ^ 64` the sum wraps around to a small number and the comparison holds. Nothing lies at
such an offset, so an access that gets past the comparison is a defect (`Linear.position?`).

## Why growth can be a defect

The bounds are numbers of units, and a unit can be so long that a number of units within the bounds is more than
can be addressed (`Linear.maxLength`). To ask for it is a defect. Neither memories nor tables nor globals can come
to that: with a unit of at most 65536 bytes, any number of units that is a word of 32 bits can be addressed.
-/

namespace FlatWasm

/-- What became of a request to grow. -/
inductive GrowResult where
  /-- Nothing was asked of an empty store. -/
  | noChange
  | tooLarge
  /-- Below the minimum, or below the current size. -/
  | tooSmall
  | grown
deriving DecidableEq, Repr

namespace GrowResult

def name : GrowResult → String
  | .noChange => "no change"
  | .tooLarge => "too large"
  | .tooSmall => "too small"
  | .grown => "grown"

/-- The results in the order of their numbers. -/
def all : List GrowResult :=
  [.noChange, .tooLarge, .tooSmall, .grown]

/-- The name of the result with a number, also where there is none. -/
def nameOfCode (code : UInt8) : String :=
  match all[code.toNat]? with
  | some r => r.name
  | none => s!"GrowResult({code})"

end GrowResult

/-- Growth that was asked for and is outside the bounds. -/
structure BoundsError where
  result : GrowResult
  requested : UInt32
  min : UInt32
  max : UInt32
deriving DecidableEq, Repr

def BoundsError.message (e : BoundsError) : String :=
  s!"grow to {e.requested} outside of [{e.min}, {e.max}]: {e.result.name}"

/-- A byte string that grows in units. -/
structure Linear where
  bytes : Sparse := .zeros 0
  /-- The length of a unit in bytes. -/
  unit : UInt32
  /-- The least and the greatest number of units. -/
  min : UInt32
  max : UInt32
deriving DecidableEq, Repr

namespace Linear

/-- The length in bytes. -/
def length (s : Linear) : Nat :=
  s.bytes.length

/-- The number of units. -/
def size (s : Linear) : Except Defect UInt32 :=
  if s.unit = 0 then .error .zeroUnit
  else .ok (UInt32.ofNat (s.length / s.unit.toNat))

/-- The greatest length in bytes that can be addressed. -/
def maxLength : Nat := 1 <<< 48

/-- The store with zeros up to a length. -/
def extend (s : Linear) (length : Nat) : Linear :=
  { s with bytes := s.bytes.extend length }

/-- Brings the store to a number of units, if that is within its bounds and not below its size. -/
def grow (s : Linear) (units : UInt32) : Except Defect (GrowResult × Linear) :=
  let length := units.toNat * s.unit.toNat
  if s.max < units then .ok (.tooLarge, s)
  else if length < s.length then .ok (.tooSmall, s)
  else if units = 0 ∧ s.length = 0 then .ok (.noChange, s)
  else if units < s.min then .ok (.tooSmall, s)
  else if maxLength < length then .error .unaddressable
  else .ok (.grown, s.extend length)

/-- Where units are no longer than a page, growth is never a defect. -/
theorem exists_grow_eq_ok (s : Linear) (units : UInt32) (h : s.unit.toNat ≤ 65536) :
    ∃ r, s.grow units = .ok r := by
  have hlength : units.toNat * s.unit.toNat ≤ maxLength :=
    Nat.le_trans (Nat.mul_le_mul (Nat.le_of_lt units.toNat_lt) h) (by decide)
  unfold grow
  simp only [if_neg (Nat.not_lt.mpr hlength)]
  repeat' split
  all_goals exact ⟨_, rfl⟩

/-- Growth that has to succeed. Where `allowNoChange`, an empty store may stay empty. -/
def growStrict (s : Linear) (units : UInt32) (allowNoChange : Bool) :
    Except (Failure BoundsError) Linear := do
  match ← orDefect (s.grow units) with
  | (.grown, s) => return s
  | (result, s) =>
    if result = .noChange ∧ allowNoChange then return s
    else refuse { result, requested := units, min := s.min, max := s.max }

/-! ## Positions -/

/-- The bytes at a position; none if they are not all within the store. -/
def bytesAt? (s : Linear) (position count : Nat) : Option (List UInt8) :=
  if position + count ≤ s.length then
    some (s.bytes.slice position count)
  else none

/-- The store with some bytes replaced from a position on. -/
def put (s : Linear) (position : Nat) (payload : List UInt8) : Linear :=
  { s with bytes := s.bytes.overwrite position payload }

/-- The store with some bytes replaced from a position on; none if they are not all within the store. -/
def put? (s : Linear) (position : Nat) (payload : List UInt8) : Option Linear :=
  if position + payload.length ≤ s.length then some (s.put position payload) else none

/-! ## Offsets -/

/-- The position of `count` bytes at an offset; none if they are not within the store, as the 64-bit sum says. -/
def position? (s : Linear) (offset : UInt64) (count : Nat) : Except Defect (Option Nat) :=
  if s.length < (offset + UInt64.ofNat count).toNat then .ok none
  else if s.length < offset.toNat + count then .error .outOfBounds
  else .ok (some offset.toNat)

/-- The bytes at an offset; none if they are not within the store. -/
def read (s : Linear) (offset : UInt64) (count : Nat) : Except Defect (Option (List UInt8)) := do
  return (← s.position? offset count).bind (s.bytesAt? · count)

def read32 (s : Linear) (offset : UInt64) : Except Defect (Option UInt32) := do
  return (← s.read offset 4).map fun bytes => UInt32.ofNat (ofLittleEndian bytes)

def read64 (s : Linear) (offset : UInt64) : Except Defect (Option UInt64) := do
  return (← s.read offset 8).map fun bytes => UInt64.ofNat (ofLittleEndian bytes)

/-- Writes bytes at an offset; none if they do not fit. -/
def write (s : Linear) (offset : UInt64) (payload : List UInt8) :
    Except Defect (Option Linear) := do
  return (← s.position? offset payload.length).bind (s.put? · payload)

def write32 (s : Linear) (offset : UInt64) (v : UInt32) : Except Defect (Option Linear) :=
  s.write offset (word32 v)

def write64 (s : Linear) (offset : UInt64) (v : UInt64) : Except Defect (Option Linear) :=
  s.write offset (word64 v)

end Linear

end FlatWasm
