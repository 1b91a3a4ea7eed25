import FlatWasm.ErrorClass
import FlatWasm.Location
import FlatWasm.Module

/-!
# Index spaces

An index of the binary format counts the imports of a kind first and the definitions of the module after them.
An index space answers, for every function, global, memory and table index, where the entity lives and what its
declared type is.

## Why a namespace is two lists

The order "imports first" is a law of the format, not a property to be checked at each look-up. A `Namespace`
keeps the imported and the defined entries apart, so an index below the number of imports is an import, the
rest are definitions, and the location of an index is a matter of subtraction. The builder keeps the law by
refusing an import of a kind once something of that kind is defined.
-/

namespace FlatWasm

/-- The entries of one kind, in index order: the imports, then what the module defines. -/
structure Namespace (α : Type) where
  imported : List α := []
  defined : List α := []
deriving DecidableEq, Repr, Inhabited

namespace Namespace

variable {α : Type}

/-- How many indices there are. -/
def size (n : Namespace α) : Nat :=
  n.imported.length + n.defined.length

/-- Where index `i` lives. -/
def locate (n : Namespace α) (i : UInt32) : Location :=
  if i.toNat < n.imported.length then ⟨.imported, i⟩
  else ⟨.defined, i - UInt32.ofNat n.imported.length⟩

/-- Where index `i` lives and what is known of it, if it exists. -/
def get? (n : Namespace α) (i : UInt32) : Option (Location × α) :=
  (n.imported ++ n.defined)[i.toNat]?.map fun a => (n.locate i, a)

/-- One more import. -/
def addImport (n : Namespace α) (a : α) : Namespace α :=
  { n with imported := n.imported ++ [a] }

/-- One more definition. -/
def define (n : Namespace α) (a : α) : Namespace α :=
  { n with defined := n.defined ++ [a] }

end Namespace

/-- The index spaces of a module. Functions are known by their type index. -/
structure IndexSpace where
  types : List (Option FuncType) := []
  functions : Namespace UInt32 := {}
  globals : Namespace (Option GlobalType) := {}
  memories : Namespace (Option Limits) := {}
  tables : Namespace (Option Limits) := {}
deriving DecidableEq, Repr, Inhabited

namespace IndexSpace

/-- What an index is an index of. -/
inductive Kind where
  | type | function | global | memory | table
deriving DecidableEq, Repr

def Kind.name : Kind → String
  | .type => "type"
  | .function => "function"
  | .global => "global"
  | .memory => "memory"
  | .table => "table"

/-- Why an index cannot be resolved, or an entry cannot be added. -/
inductive Error where
  | outOfRange (kind : Kind) (index : UInt32)
  /-- An imported function of a type that does not exist. -/
  | importType (module name : String) (typeIndex : UInt32)
  /-- A defined function of a type that does not exist. -/
  | functionType (position : Nat) (typeIndex : UInt32)
  | importAfterDefinition (kind : Kind) (module name : String)
  | importKind (module name : String) (kind : ExternKind)
  | sealed
deriving DecidableEq, Repr

namespace Error

def message : Error → String
  | .outOfRange kind index => s!"index out of range: {kind.name}[{index}]"
  | .importType module name typeIndex =>
    s!"index out of range: function import {module}.{name} has type[{typeIndex}]"
  | .functionType position typeIndex =>
    s!"index out of range: function[{position}] has type[{typeIndex}]"
  | .importAfterDefinition kind module name =>
    s!"{kind.name} import {module}.{name} after a defined {kind.name}"
  | .importKind module name kind => s!"import {module}.{name} has invalid type {kind.hex}"
  | .sealed => "index table already built"

def classes : Error → List ErrorClass
  | .outOfRange .. | .importType .. | .functionType .. => [.indexOutOfRange]
  | .sealed => [.indexSpaceSealed]
  | .importAfterDefinition .. | .importKind .. => []

end Error

/-- The function type at an index of the type section. -/
def type (s : IndexSpace) (i : UInt32) : Except Error (Option FuncType) :=
  match s.types[i.toNat]? with
  | some t => .ok t
  | none => .error (.outOfRange .type i)

/-- Where a function lives, and its type. -/
def function (s : IndexSpace) (i : UInt32) : Except Error (Location × Option FuncType) :=
  match s.functions.get? i with
  | some (loc, t) => .ok (loc, (s.types[t.toNat]?).join)
  | none => .error (.outOfRange .function i)

/-- Where a global lives, and its type. -/
def global (s : IndexSpace) (i : UInt32) : Except Error (Location × Option GlobalType) :=
  match s.globals.get? i with
  | some entry => .ok entry
  | none => .error (.outOfRange .global i)

/-- Where a memory lives, and its limits. -/
def memory (s : IndexSpace) (i : UInt32) : Except Error (Location × Option Limits) :=
  match s.memories.get? i with
  | some entry => .ok entry
  | none => .error (.outOfRange .memory i)

/-- Where a table lives, and its limits. -/
def table (s : IndexSpace) (i : UInt32) : Except Error (Location × Option Limits) :=
  match s.tables.get? i with
  | some entry => .ok entry
  | none => .error (.outOfRange .table i)

/-- Index spaces in the making. Once sealed they take no further entry. -/
structure Builder where
  space : IndexSpace
  isSealed : Bool := false
deriving DecidableEq, Repr

namespace Builder

/-- Empty index spaces over a type section. -/
def ofTypes (types : List (Option FuncType)) : Builder :=
  { space := { types } }

/-- Makes a change, unless the index spaces are sealed. -/
def update (b : Builder) (f : IndexSpace → Except Error IndexSpace) : Except Error Builder :=
  if b.isSealed then .error .sealed
  else
    match f b.space with
    | .ok space => .ok { b with space }
    | .error e => .error e

/-- Refuses an import of a kind of which something is defined. -/
def importFirst {α : Type} (n : Namespace α) (kind : Kind) (im : Import) : Except Error Unit :=
  if n.defined.isEmpty then .ok () else .error (.importAfterDefinition kind im.module im.name)

/-- Adds an import. -/
def addImport (b : Builder) (im : Import) : Except Error Builder :=
  b.update fun s =>
    match im.desc with
    | .func typeIndex => do
      importFirst s.functions .function im
      if s.types.length ≤ typeIndex.toNat then throw (.importType im.module im.name typeIndex)
      return { s with functions := s.functions.addImport typeIndex }
    | .global type => do
      importFirst s.globals .global im
      return { s with globals := s.globals.addImport type }
    | .memory limits => do
      importFirst s.memories .memory im
      return { s with memories := s.memories.addImport limits }
    | .table limits => do
      importFirst s.tables .table im
      return { s with tables := s.tables.addImport limits }
    | .other kind => throw (.importKind im.module im.name kind)

/-- Adds a function that the module defines. -/
def addFunction (b : Builder) (typeIndex : UInt32) : Except Error Builder :=
  b.update fun s =>
    if s.types.length ≤ typeIndex.toNat then .error (.functionType s.functions.size typeIndex)
    else .ok { s with functions := s.functions.define typeIndex }

/-- Adds a global that the module defines. -/
def addGlobal (b : Builder) (type : Option GlobalType) : Except Error Builder :=
  b.update fun s => .ok { s with globals := s.globals.define type }

/-- Adds a memory that the module defines. -/
def addMemory (b : Builder) (limits : Option Limits) : Except Error Builder :=
  b.update fun s => .ok { s with memories := s.memories.define limits }

/-- Adds a table that the module defines. -/
def addTable (b : Builder) (limits : Option Limits) : Except Error Builder :=
  b.update fun s => .ok { s with tables := s.tables.define limits }

/-- Seals the index spaces. -/
def build (b : Builder) : Except Error Builder :=
  if b.isSealed then .error .sealed else .ok { b with isSealed := true }

end Builder

/-- Why the index spaces of a module cannot be built. -/
inductive BuildError where
  | inImport (position : Nat) (cause : Error)
  | inDefinition (cause : Error)
deriving DecidableEq, Repr

namespace BuildError

def message : BuildError → String
  | .inImport position cause => s!"import[{position}]: {cause.message}"
  | .inDefinition cause => cause.message

def classes : BuildError → List ErrorClass
  | .inImport _ cause | .inDefinition cause => cause.classes

end BuildError

end IndexSpace

/-- The index spaces of a module: its imports, then its definitions kind by kind. -/
def Module.indexSpace (m : Module) : Except IndexSpace.BuildError IndexSpace := do
  let b := IndexSpace.Builder.ofTypes m.types
  let b ← m.imports.zipIdx.foldlM (fun b (im, i) => (b.addImport im).mapError (.inImport i)) b
  let b ← (m.functions.foldlM IndexSpace.Builder.addFunction b).mapError .inDefinition
  let b ← ((m.globals.map Global.type).foldlM IndexSpace.Builder.addGlobal b).mapError .inDefinition
  let b ← ((m.memories.map some).foldlM IndexSpace.Builder.addMemory b).mapError .inDefinition
  let b ← ((m.tables.map some).foldlM IndexSpace.Builder.addTable b).mapError .inDefinition
  let b ← b.build.mapError .inDefinition
  return b.space

end FlatWasm
