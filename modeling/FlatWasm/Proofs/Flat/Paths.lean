import Mathlib
import FlatWasm.Proofs.Flat.Fetch

/-!
# Paths through flat code

Flat code is a graph: its nodes are offsets, and an instruction has a way to every offset where control may go after
it.  A path takes any of them; whether a machine would take them with some values on its stack does not matter.

What a path carries along is said here twice.  `SlotStep` follows what is selected: a marker fills a slot, and calls
and `memoryGrow` empty slots.  `HeightStep` follows the height of the stack; a call takes and leaves what its type says,
and a branch drops values on the way.

## Why a way says what is dropped

All ways out of an instruction pop the same values first, a condition or an index among them.  Then a branch that is
taken drops values, and one that is not taken drops none.  So the values that are popped belong to the instruction, and
those that are dropped to the way.
-/

namespace FlatWasm

namespace IndexSpace

/-- The type of the function at a position of a list of functions. -/
def typeAt? (space : IndexSpace) (functions : List UInt32) (position : UInt32) : Option FuncType :=
  functions[position.toNat]?.bind fun t => space.types[t.toNat]?.join

end IndexSpace

namespace Flat

/-- The selected memory, table and global: the kind byte of a location and its position. -/
abbrev Slots := StoreKind → Option (UInt8 × UInt32)

/-- Nothing is known to be selected. -/
def Slots.unknown : Slots := fun _ => none

namespace Instr

/-- Where control may go after the instruction at an offset, with the number of values that are dropped on the way.
Both outcomes of a condition count, and all entries of a table but those that return. -/
def ways (pc : ℕ) (j : Instr) : List (ℕ × ℕ) :=
  match j with
  | .unreachable | .ret .. => []
  | .jump target => [(target.toNat, 0)]
  | .jumpIf target | .jumpUnless target => [(target.toNat, 0), (pc + j.size, 0)]
  | .br _ dropped target => [(target.toNat, dropped.toNat)]
  | .brIf _ dropped target => [(target.toNat, dropped.toNat), (pc + j.size, 0)]
  | .brTable _ entries fallback =>
    ((entries ++ [fallback]).filter (·.target ≠ returnTarget)).map fun e =>
      (e.target.toNat, e.drop.toNat)
  | _ => [(pc + j.size, 0)]

/-! ## What is selected -/

/-- The kind of store that an instruction works on. -/
def store? : Instr → Option StoreKind
  | .callIndirect _ => some .table
  | .globalGet _ | .globalSet _ => some .global
  | .load .. | .store .. | .memorySize | .memoryGrow | .memoryCopy | .memoryFill => some .memory
  | _ => none

/-- The slots after an instruction. -/
def slotsAfter (slots : Slots) : Instr → Slots
  | .use kind origin position => Function.update slots kind (some (origin, position))
  | .callLocal _ | .callImport _ | .callIndirect _ => .unknown
  | .memoryGrow => Function.update slots .memory none
  | _ => slots

/-! ## How high the stack is -/

/-- How many values an instruction pops and pushes, apart from those that a branch or a return moves. -/
def effect? (space : IndexSpace) : Instr → Option (ℕ × ℕ)
  | .unreachable | .jump _ | .br .. | .ret .. | .use .. => some (0, 0)
  | .locals count => some (0, count.toNat)
  | .jumpIf _ | .jumpUnless _ | .brIf .. | .brTable .. | .drop | .localSet _ | .globalSet _ =>
    some (1, 0)
  | .callLocal position => (space.typeAt? space.functions.defined position).map fun type =>
    (type.params.length, type.results.length)
  | .callImport position => (space.typeAt? space.functions.imported position).map fun type =>
    (type.params.length, type.results.length)
  | .callIndirect typeIndex => space.types[typeIndex.toNat]?.join.map fun type =>
    (type.params.length + 1, type.results.length)
  | .select => some (3, 1)
  | .localGet _ | .globalGet _ | .memorySize | .const32 _ | .const64 _ => some (0, 1)
  | .localTee _ | .load .. | .memoryGrow | .truncate _ => some (1, 1)
  | .store .. => some (2, 0)
  | .memoryCopy | .memoryFill => some (3, 0)
  | .numeric op => some (op.type.params.length, op.type.results.length)

/-- The local that an instruction names. -/
def local? : Instr → Option UInt32
  | .localGet x | .localSet x | .localTee x => some x
  | _ => none

/-- How many values the branches of an instruction keep and drop. -/
def branches : Instr → List (ℕ × ℕ)
  | .br keep dropped _ | .brIf keep dropped _ => [(keep.toNat, dropped.toNat)]
  | .brTable keep entries fallback =>
    ((entries ++ [fallback]).filter (·.target ≠ returnTarget)).map fun e =>
      (keep.toNat, e.drop.toNat)
  | _ => []

/-- How many values the returns of an instruction keep and drop. -/
def returns : Instr → List (ℕ × ℕ)
  | .ret keep dropped => [(keep.toNat, dropped.toNat)]
  | .brTable keep entries fallback =>
    ((entries ++ [fallback]).filter (·.target = returnTarget)).map fun e =>
      (keep.toNat, e.drop.toNat)
  | _ => []

/-- What an instruction has to keep to where the stack has some height, in a function with so many locals, parameters
included, and so many results. -/
structure Disciplined (space : IndexSpace) (locals results height : ℕ) (j : Instr) : Prop where
  local_lt : ∀ x ∈ j.local?, x.toNat < locals
  /-- The number of values that are popped is known, and all of them are above the locals; so are, after that, the
  values that a branch moves or drops.  To return is to leave nothing. -/
  exists_effect : ∃ pops pushes, j.effect? space = some (pops, pushes) ∧
    (0 < pops → locals + pops ≤ height) ∧
    (∀ b ∈ j.branches, locals + (b.1 + b.2) + pops ≤ height) ∧
    ∀ r ∈ j.returns, r.1 + r.2 + pops = height ∧ r.1 = results

end Instr

/-! ## Steps -/

/-- A step along a path, with what is selected. -/
inductive SlotStep (bytes : List UInt8) : ℕ × Slots → ℕ × Slots → Prop where
  | step {pc next dropped : ℕ} {slots : Slots} {j : Instr} (hj : fetch bytes pc = some j)
      (hw : (next, dropped) ∈ j.ways pc) : SlotStep bytes (pc, slots) (next, j.slotsAfter slots)

/-- A step along a path, with the height of the stack. -/
inductive HeightStep (space : IndexSpace) (bytes : List UInt8) : ℕ × ℕ → ℕ × ℕ → Prop where
  | step {pc height next dropped pops pushes : ℕ} {j : Instr} (hj : fetch bytes pc = some j)
      (he : j.effect? space = some (pops, pushes)) (hw : (next, dropped) ∈ j.ways pc) :
      HeightStep space bytes (pc, height) (next, height - pops + pushes - dropped)

end Flat

end FlatWasm
