import Std.Data.ExtTreeMap

/-!
# Byte strings that are mostly zero

A store starts as zeros, may be many gigabytes long, and is written in few places. A `Sparse` is a byte string of
which only the length and the bytes other than zero are kept, so that it costs what was written into it, however
long it is.

## Why zeros are not kept

A byte string is determined by its length and by its byte at each position (`byte`), and nothing else should tell
two of them apart. So a zero is never kept, also when it is written over another byte, and neither is anything
beyond the end. With that the kept bytes are a normal form, and `Sparse.ext_byte` says that `length` and `byte` are
all there is.
-/

namespace FlatWasm

/-- A byte string, by its length and its bytes other than zero. -/
structure Sparse where
  length : Nat
  cells : Std.ExtTreeMap Nat UInt8
  /-- Nothing is kept beyond the end. -/
  lt_length : ∀ i ∈ cells, i < length
  /-- Zeros are not kept. -/
  ne_zero : ∀ i : Nat, cells[i]? ≠ some 0
deriving DecidableEq

namespace Sparse

/-- A byte string of zeros. -/
def zeros (length : Nat) : Sparse where
  length := length
  cells := ∅
  lt_length := by simp
  ne_zero := by simp

/-- The byte at a position; zero beyond the end. -/
def byte (s : Sparse) (i : Nat) : UInt8 :=
  s.cells[i]?.getD 0

/-- The byte string with zeros up to a length, or as it is if it is longer. -/
def extend (s : Sparse) (length : Nat) : Sparse :=
  { s with
    length := max s.length length
    lt_length := fun i hi => Nat.lt_of_lt_of_le (s.lt_length i hi) (Nat.le_max_left ..) }

/-- The byte string with another byte at a position, if the position is within it. -/
def set (s : Sparse) (i : Nat) (b : UInt8) : Sparse :=
  if h : i < s.length then
    if hb : b = 0 then
      { s with
        cells := s.cells.erase i
        lt_length := fun j hj => s.lt_length j (Std.ExtTreeMap.mem_of_mem_erase hj)
        ne_zero := fun j => by
          rw [Std.ExtTreeMap.getElem?_erase]
          split
          · simp
          · exact s.ne_zero j }
    else
      { s with
        cells := s.cells.insert i b
        lt_length := fun j hj => by
          rcases Std.ExtTreeMap.mem_insert.mp hj with hij | hj
          · exact Nat.compare_eq_eq.mp hij ▸ h
          · exact s.lt_length j hj
        ne_zero := fun j => by
          rw [Std.ExtTreeMap.getElem?_insert]
          split
          · simpa using hb
          · exact s.ne_zero j }
  else s

/-- The bytes from a position on. -/
def slice (s : Sparse) (position count : Nat) : List UInt8 :=
  (List.range' position count).map s.byte

/-- The byte string with some bytes replaced from a position on. -/
def overwrite (s : Sparse) (position : Nat) : List UInt8 → Sparse
  | [] => s
  | b :: rest => (s.set position b).overwrite (position + 1) rest

/-- The bytes other than zero, with their positions, in order. -/
def nonzero (s : Sparse) : List (Nat × UInt8) :=
  s.cells.toList

instance : Repr Sparse where
  reprPrec s := reprPrec (s.length, s.nonzero)

/-! ## What the operations do to length and bytes -/

theorem ext_byte {s t : Sparse} (hl : s.length = t.length) (hb : ∀ i, s.byte i = t.byte i) :
    s = t := by
  have hc : s.cells = t.cells := by
    apply Std.ExtTreeMap.ext_getElem?
    intro i
    have hs := s.ne_zero i
    have ht := t.ne_zero i
    have hi := hb i
    unfold byte at hi
    generalize s.cells[i]? = a at hs hi
    generalize t.cells[i]? = b at ht hi
    cases a <;> cases b <;> simp_all
  cases s
  cases t
  simp_all

theorem byte_of_length_le (s : Sparse) {i : Nat} (h : s.length ≤ i) : s.byte i = 0 := by
  have hi : i ∉ s.cells := fun hm => absurd (s.lt_length i hm) (Nat.not_lt.mpr h)
  simp [byte, Std.ExtTreeMap.getElem?_eq_none hi]

@[simp] theorem byte_zeros (n i : Nat) : (zeros n).byte i = 0 := by
  simp [byte, zeros]

@[simp] theorem byte_extend (s : Sparse) (n i : Nat) : (s.extend n).byte i = s.byte i :=
  rfl

@[simp] theorem length_set (s : Sparse) (i : Nat) (b : UInt8) : (s.set i b).length = s.length := by
  unfold set
  split
  · split <;> rfl
  · rfl

theorem byte_set (s : Sparse) {i : Nat} (h : i < s.length) (b : UInt8) (j : Nat) :
    (s.set i b).byte j = if i = j then b else s.byte j := by
  by_cases hb : b = 0
  · simp only [set, h, hb, byte, dif_pos, Std.ExtTreeMap.getElem?_erase, Nat.compare_eq_eq]
    split <;> rfl
  · simp only [set, h, hb, byte, dif_pos, dif_neg, not_false_eq_true,
      Std.ExtTreeMap.getElem?_insert, Nat.compare_eq_eq]
    split <;> rfl

@[simp] theorem length_overwrite (s : Sparse) (position : Nat) (payload : List UInt8) :
    (s.overwrite position payload).length = s.length := by
  induction payload generalizing s position with
  | nil => rfl
  | cons b rest ih => rw [overwrite, ih, length_set]

@[simp] theorem length_slice (s : Sparse) (position count : Nat) :
    (s.slice position count).length = count := by
  simp [slice]

end Sparse

end FlatWasm
