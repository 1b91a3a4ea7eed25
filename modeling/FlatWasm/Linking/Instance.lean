import FlatWasm.Compilation
import FlatWasm.Linking.Pool

/-!
# Instances

An instance is a compiled module together with what it works on: the host functions behind its imports, and the
addresses of its memories, tables and globals. Everything is found by its location, as flat code names it.
-/

namespace FlatWasm

/-- The entry at a location. -/
def Namespace.at? {α : Type} (n : Namespace α) (loc : Location) : Option α :=
  match loc.origin with
  | .imported => n.imported[loc.position.toNat]?
  | .defined => n.defined[loc.position.toNat]?

/-- An instantiated module. -/
structure Instance where
  compiled : Compiled
  /-- The types of the host functions behind the function imports. -/
  hosts : List FuncType := []
  memories : Namespace Address := {}
  tables : Namespace Address := {}
  globals : Namespace Address := {}
deriving DecidableEq, Repr

namespace Instance

/-- The function at a position among those that the module defines. -/
def function? (inst : Instance) (position : UInt32) : Option Function :=
  inst.compiled.functions[position.toNat]?

def memory? (inst : Instance) (pool : Pool) (loc : Location) : Option Memory :=
  (inst.memories.at? loc).bind (pool.memories[·]?)

def table? (inst : Instance) (pool : Pool) (loc : Location) : Option Table :=
  (inst.tables.at? loc).bind (pool.tables[·]?)

def global? (inst : Instance) (pool : Pool) (loc : Location) : Option GlobalCell :=
  (inst.globals.at? loc).bind (pool.globals[·]?)

/-- The address of the memory with an index. -/
def memoryAt? (inst : Instance) (i : UInt32) : Option Address :=
  (inst.compiled.space.memory i).toOption.bind fun entry => inst.memories.at? entry.1

/-- The address of the table with an index. -/
def tableAt? (inst : Instance) (i : UInt32) : Option Address :=
  (inst.compiled.space.table i).toOption.bind fun entry => inst.tables.at? entry.1

/-- Where the start function is, if the module declares one. -/
def start? (inst : Instance) : Option Location :=
  inst.compiled.module.start.bind fun i =>
    (inst.compiled.space.function i).toOption.map Prod.fst

/-- Where an export of a kind is. -/
def export? (inst : Instance) (kind : ExternKind) (name : String) : Option Location :=
  (inst.compiled.module.exports.find? fun e => e.name = name ∧ e.kind = kind).bind fun e =>
    (inst.compiled.space.locate? kind e.index).bind Except.toOption

/-- The value of a global, to evaluate initializers with. -/
def globalValue (inst : Instance) (pool : Pool) (i : UInt32) : Except GlobalError UInt64 := do
  let (loc, _) ← (inst.compiled.space.global i).mapError .outOfRange
  match inst.global? pool loc with
  | some g => return g.value
  | none => throw (.uninitialized i)

/-- The value of an `i32` global, to place segments with. -/
def offsetValue (inst : Instance) (pool : Pool) : GlobalReader := fun i => do
  let (loc, type) ← (inst.compiled.space.global i).mapError .outOfRange
  match type with
  | some type => if type.valueType ≠ .i32 then throw (.offsetType type.valueType)
  | none => throw .unknown
  match inst.global? pool loc with
  | some g => return g.value.toUInt32
  | none => throw (.uninitialized i)

end Instance

end FlatWasm
