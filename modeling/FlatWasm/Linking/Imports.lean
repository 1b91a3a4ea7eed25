import FlatWasm.Linking.Pool

/-!
# Bindings of imports

An embedder binds the two-level names of imports to host functions and to stores. A later binding of a name replaces
an earlier one of the same kind. A name can also be bound to nothing, which is as good as no binding.

Each import of a module is compared with what its name is bound to: a function must have the declared type, a memory
or table must be at least as large as declared and must not be able to grow beyond the declared maximum, a global
must have the declared type and a value.
-/

namespace FlatWasm

/-- The two-level name of an import. -/
structure ImportName where
  module : String
  name : String
deriving DecidableEq, Repr

/-- What some names are bound to, the latest binding first. -/
abbrev Bindings (α : Type) := List (ImportName × Option α)

/-- What a name is bound to. -/
def Bindings.find? {α : Type} (b : Bindings α) (name : ImportName) : Option α :=
  (b.lookup name).join

/-- The bindings of an embedder. Of a host function only the type matters here. -/
structure Imports where
  functions : Bindings FuncType := []
  memories : Bindings Address := []
  tables : Bindings Address := []
  globals : Bindings Address := []
deriving DecidableEq, Repr

namespace Imports

def bindFunction (b : Imports) (name : ImportName) (f : Option FuncType) : Imports :=
  { b with functions := (name, f) :: b.functions }

def bindMemory (b : Imports) (name : ImportName) (a : Option Address) : Imports :=
  { b with memories := (name, a) :: b.memories }

def bindTable (b : Imports) (name : ImportName) (a : Option Address) : Imports :=
  { b with tables := (name, a) :: b.tables }

def bindGlobal (b : Imports) (name : ImportName) (a : Option Address) : Imports :=
  { b with globals := (name, a) :: b.globals }

end Imports

/-- Why a binding does not serve an import. -/
inductive BindingError where
  | missing
  | typeIndex (cause : IndexSpace.Error)
  | signature (actual declared : FuncType)
  | size (actual declared : UInt32)
  | max (actual declared : UInt32)
  | globalType (actual declared : GlobalType)
  /-- A global without a value. -/
  | unallocated
  | kind (kind : ExternKind)
deriving DecidableEq, Repr

namespace BindingError

def message : BindingError → String
  | .missing => "import not found"
  | .typeIndex cause => cause.message
  | .signature actual declared =>
    s!"import type mismatch: signature {actual.text} != {declared.text}"
  | .size actual declared => s!"import type mismatch: size {actual} < min {declared}"
  | .max actual declared => s!"import type mismatch: max {actual} > max {declared}"
  | .globalType actual declared =>
    s!"import type mismatch: global {actual.text} != {declared.text}"
  | .unallocated => "import type mismatch: global isn't allocated"
  | .kind k => s!"invalid type {k.hex}"

def classes : BindingError → List ErrorClass
  | .missing => [.importMissing]
  | .typeIndex cause => cause.classes
  | .kind _ => []
  | .signature .. | .size .. | .max .. | .globalType .. | .unallocated => [.importMismatch]

end BindingError

/-- What the imports of a module are bound to, kind by kind and in the order of the imports. -/
structure Bound where
  functions : List FuncType := []
  memories : List Address := []
  tables : List Address := []
  globals : List Address := []
deriving DecidableEq, Repr

/-- The outcome of comparing a binding with its import. -/
abbrev Binding (α : Type) := Except (Failure BindingError) α

/-- A binding that has to be there. -/
def bound {α : Type} (x : Option α) : Binding α :=
  match x with
  | some a => .ok a
  | none => refuse .missing

/-- A store is within declared limits. -/
def checkStore (s : Linear) (declared : Limits) : Binding Unit := do
  let size ← orDefect s.size
  if size < declared.min then refuse (.size size declared.min)
  match declared.max with
  | none => return ()
  | some max => if max < s.max then refuse (.max s.max max)

namespace Imports

/-- Binds one import. -/
def resolveOne (b : Imports) (space : IndexSpace) (pool : Pool) (im : Import) (r : Bound) :
    Binding Bound := do
  let name : ImportName := ⟨im.module, im.name⟩
  match im.desc with
  | .func typeIndex =>
    let actual ← bound (b.functions.find? name)
    let declared ← present (← orRefuse .typeIndex (space.type typeIndex))
    if declared ≠ actual then refuse (.signature actual declared)
    return { r with functions := r.functions ++ [actual] }
  | .memory limits =>
    let a ← bound (b.memories.find? name)
    checkStore (← present pool.memories[a]?).store (← present limits)
    return { r with memories := r.memories ++ [a] }
  | .table limits =>
    let a ← bound (b.tables.find? name)
    checkStore (← present pool.tables[a]?).store (← present limits)
    return { r with tables := r.tables ++ [a] }
  | .global type =>
    let a ← bound (b.globals.find? name)
    let cell ← present pool.globals[a]?
    let declared ← present type
    if cell.type ≠ declared then refuse (.globalType cell.type declared)
    if cell.store.length = 0 then refuse .unallocated
    return { r with globals := r.globals ++ [a] }
  | .other kind => refuse (.kind kind)

/-- An import that could not be bound. -/
structure Error where
  kind : ExternKind
  name : ImportName
  cause : BindingError
deriving DecidableEq, Repr

def Error.message (e : Error) : String :=
  s!"import {e.kind.name}[{e.name.module}.{e.name.name}]: {e.cause.message}"

def Error.classes (e : Error) : List ErrorClass :=
  e.cause.classes

/-- Binds the imports of a module in order. -/
def resolve (b : Imports) (space : IndexSpace) (pool : Pool) (imports : List Import) :
    Except (Failure Error) Bound :=
  imports.foldlM
    (fun r im =>
      (b.resolveOne space pool im r).mapError
        (Failure.map fun cause => ⟨im.desc.kind, ⟨im.module, im.name⟩, cause⟩))
    {}

end Imports

end FlatWasm
