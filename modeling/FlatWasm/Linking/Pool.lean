import FlatWasm.Store.Global
import FlatWasm.Store.Memory
import FlatWasm.Store.Table

/-!
# The pool of stores

Memories, tables and globals are shared: an embedder hands the same store to several modules, and a module passes on
what it imports. A pool holds all stores that there are, and whoever uses a store knows its address. So two uses of
one address are uses of one store, and what one of them writes the other reads.

Stores are added and never removed.
-/

namespace FlatWasm

/-- The place of a store among the stores of its kind. -/
abbrev Address := Nat

/-- All stores. -/
structure Pool where
  memories : Array Memory := #[]
  tables : Array Table := #[]
  globals : Array GlobalCell := #[]
deriving DecidableEq, Repr, Inhabited

namespace Pool

def addMemory (p : Pool) (m : Memory) : Address × Pool :=
  (p.memories.size, { p with memories := p.memories.push m })

def addTable (p : Pool) (t : Table) : Address × Pool :=
  (p.tables.size, { p with tables := p.tables.push t })

def addGlobal (p : Pool) (g : GlobalCell) : Address × Pool :=
  (p.globals.size, { p with globals := p.globals.push g })

def setMemory (p : Pool) (a : Address) (m : Memory) : Pool :=
  { p with memories := p.memories.setIfInBounds a m }

def setTable (p : Pool) (a : Address) (t : Table) : Pool :=
  { p with tables := p.tables.setIfInBounds a t }

def setGlobal (p : Pool) (a : Address) (g : GlobalCell) : Pool :=
  { p with globals := p.globals.setIfInBounds a g }

end Pool

/-! ## Stores that an embedder makes -/

/-- A memory that an embedder makes. -/
def hostMemory (limits : Limits) : Except (Failure Memory.Error) Memory :=
  Memory.allocate limits Limits.maxPages

/-- A table that an embedder makes. -/
def hostTable (limits : Limits) : Except (Failure Table.Error) Table :=
  Table.allocate limits

/-- A global that an embedder could not make. -/
inductive HostGlobalError where
  | valueType (type : ValueType)
  | allocation (cause : GlobalCell.Error)
deriving DecidableEq, Repr

namespace HostGlobalError

def message : HostGlobalError → String
  | .valueType type => s!"invalid value type: {type.hex}"
  | .allocation cause => cause.message

def classes : HostGlobalError → List ErrorClass
  | .valueType _ => []
  | .allocation cause => cause.classes

end HostGlobalError

/-- A global with a value that an embedder makes. -/
def hostGlobal (type : GlobalType) (value : UInt64) :
    Except (Failure HostGlobalError) GlobalCell := do
  if !type.valueType.isNumeric then refuse (.valueType type.valueType)
  let cell ← orDefect (GlobalCell.empty type)
  let init ← orDefect (Segment.ofGlobal type value)
  let (cell, done) := cell.allocate init fun _ => .error .unknown
  done.mapError (Failure.map .allocation)
  return cell

end FlatWasm
