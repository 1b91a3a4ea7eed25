import FlatWasm.Linking.Imports
import FlatWasm.Linking.Instance
import FlatWasm.Linking.Load

/-!
# Instantiation

To instantiate a module is to bind its imports, to allocate its globals, tables and memories, and to load its
segments: first the elements, table by table, then the data, memory by memory. An instance exists when all of this
has succeeded.

## Why the pool survives a failure

Imported stores are shared, so what was written into them before a failure stays written. The work is therefore done
in `Link`, where a failure ends the work and keeps the state: the pool as it is at that point, and the events so far.
Up to the loading of segments only new stores are added; after that each step replaces one store by the same store
with all of its segments written.
-/

namespace FlatWasm

/-- Why the initial value of a global cannot be had. -/
inductive InitError where
  | expr (cause : ConstExpr.Error)
  | allocation (cause : GlobalCell.Error)
deriving DecidableEq, Repr

namespace InitError

def message : InitError → String
  | .expr cause => cause.message
  | .allocation cause => cause.message

def classes : InitError → List ErrorClass
  | .expr cause => cause.classes
  | .allocation cause => cause.classes

end InitError

/-- Why a module is not instantiated. -/
inductive LinkError where
  | binding (cause : Imports.Error)
  | global (position : Nat) (cause : InitError)
  | table (position : Nat) (cause : Table.Error)
  | memory (position : Nat) (cause : Memory.Error)
  | canceled
  | element (position : Nat) (cause : Segment.Error)
  | data (position : Nat) (cause : Segment.Error)
  /-- The segments of a store; `kind` is what the store is. -/
  | segments (kind : String) (index : Nat) (cause : LoadError)
deriving DecidableEq, Repr

namespace LinkError

def message : LinkError → String
  | .binding cause => cause.message
  | .global i cause => s!"global[{i}]: {cause.message}"
  | .table i cause => s!"table[{i}]: {cause.message}"
  | .memory i cause => s!"memory[{i}]: {cause.message}"
  | .canceled => "context canceled"
  | .element i cause => s!"element[{i}]: {cause.message}"
  | .data i cause => s!"data[{i}]: {cause.message}"
  | .segments kind i cause => cause.message s!"{kind}[{i}]"

def classes : LinkError → List ErrorClass
  | .binding cause => cause.classes
  | .global _ cause => cause.classes
  | .table .. | .memory .. => []
  | .canceled => [.canceled]
  | .element _ cause => cause.classes
  | .data _ cause => cause.classes
  | .segments _ _ cause => cause.classes

/-- The growth that failed, where that is the reason. -/
def bounds? : LinkError → Option BoundsError
  | .table _ cause => some cause.bounds
  | .memory _ cause => some cause.bounds
  | .global _ (.allocation (.bounds cause)) => some cause
  | _ => none

end LinkError

/-- What instantiation works on. -/
structure World where
  pool : Pool := {}
  /-- The events so far, the latest first. -/
  log : List Event := []

/-- A step of instantiation. A failure keeps the state. -/
abbrev Link (α : Type) := ExceptT (Failure LinkError) (StateM World) α

namespace Link

/-- A step that only looks at the pool. -/
def ofPool {α : Type} (f : Pool → Except (Failure LinkError) α) : Link α := do
  match f (← get).pool with
  | .ok a => return a
  | .error e => throw e

/-- Adds a store. -/
def alloc (f : Pool → Address × Pool) : Link Address := do
  let w ← get
  let (a, pool) := f w.pool
  set { w with pool }
  return a

def setPool (pool : Pool) : Link Unit :=
  modify fun w => { w with pool }

def event (e : Event) : Link Unit :=
  modify fun w => { w with log := e :: w.log }

end Link

namespace Instance

/-- A global that the module defines, with its initial value. -/
def makeGlobal (inst : Instance) (g : Global) (i : Nat) (pool : Pool) :
    Except (Failure LinkError) GlobalCell := do
  let expr ← present g.init
  let value ← orRefuse (fun e => .global i (.expr e)) (expr.eval (inst.globalValue pool))
  let type ← present g.type
  let cell ← orDefect (GlobalCell.empty type)
  let init ← orDefect (Segment.ofGlobal type value)
  let (cell, done) := cell.allocate init (inst.offsetValue pool)
  done.mapError (Failure.map fun e => .global i (.allocation e))
  return cell

/-- Allocates the globals that the module defines. -/
def allocateGlobals (inst : Instance) (globals : List Global) : Link Instance :=
  globals.zipIdx.foldlM
    (fun inst (g, i) => do
      let cell ← Link.ofPool (inst.makeGlobal g i)
      let a ← Link.alloc (·.addGlobal cell)
      return { inst with globals := inst.globals.define a })
    inst

/-- Allocates the tables that the module defines. -/
def allocateTables (inst : Instance) (tables : List Limits) : Link Instance :=
  tables.zipIdx.foldlM
    (fun inst (limits, i) => do
      let table ← Link.ofPool fun _ =>
        (Table.allocate limits).mapError (Failure.map (.table i))
      let a ← Link.alloc (·.addTable table)
      return { inst with tables := inst.tables.define a })
    inst

/-- Allocates the memories that the module defines. -/
def allocateMemories (inst : Instance) (memories : List Limits) (maxPages : UInt32) :
    Link Instance :=
  memories.zipIdx.foldlM
    (fun inst (limits, i) => do
      let memory ← Link.ofPool fun _ =>
        (Memory.allocate limits maxPages).mapError (Failure.map (.memory i))
      let a ← Link.alloc (·.addMemory memory)
      return { inst with memories := inst.memories.define a })
    inst

/-- Loads segments into a store; `kind` is what the store is. -/
def loadStore (inst : Instance) (config : Config) (kind : String) (i : Nat) (pool : Pool)
    (store : Linear) (segments : List Segment) :
    Except (Failure LinkError) (Option Growth × Linear) :=
  (store.load segments (inst.offsetValue pool) config.growsForSegments).mapError
    (Failure.map (.segments kind i))

/-- Notes that a store grew. -/
def noteGrowth (kind : String) (i : Nat) (growth : Option Growth) : Link Unit :=
  match growth with
  | none => return ()
  | some g => Link.event (.grew kind i g.before.toNat g.after)

/-- Loads the segments of one table. -/
def loadTable (inst : Instance) (config : Config) (segments : List (UInt32 × Segment))
    (a : Address) (i : Nat) : Link Unit := do
  let own := (segments.filter fun s => s.1.toNat = i).map Prod.snd
  let pool := (← get).pool
  let (growth, store) ← Link.ofPool fun pool => do
    inst.loadStore config "table" i pool (← present pool.tables[a]?).store own
  Link.setPool (pool.setTable a { store })
  noteGrowth "table" i growth

/-- Loads the segments of one memory. -/
def loadMemory (inst : Instance) (config : Config) (segments : List (UInt32 × Segment))
    (a : Address) (i : Nat) : Link Unit := do
  let own := (segments.filter fun s => s.1.toNat = i).map Prod.snd
  let pool := (← get).pool
  let (growth, store) ← Link.ofPool fun pool => do
    inst.loadStore config "memory" i pool (← present pool.memories[a]?).store own
  Link.setPool (pool.setMemory a { store })
  noteGrowth "memory" i growth

/-- The segments that elements become, each with its table. -/
def elementSegments (elements : List ElementSegment) :
    Except (Failure LinkError) (List (UInt32 × Segment)) :=
  elements.zipIdx.mapM fun (e, i) =>
    return (e.table, ← orRefuse (.element i) (Segment.ofElements e))

/-- The segments that data become, each with its memory. -/
def dataSegments (data : List DataSegment) :
    Except (Failure LinkError) (List (UInt32 × Segment)) :=
  data.zipIdx.mapM fun (d, i) =>
    return (d.memory, ← orRefuse (.data i) (Segment.ofData d))

/-- Loads the elements, table by table. -/
def loadTables (inst : Instance) (config : Config) : Link Unit := do
  let segments ← Link.ofPool fun _ => elementSegments inst.compiled.module.elements
  (List.range inst.compiled.space.tables.size).forM fun i => do
    let a ← Link.ofPool fun _ => present (inst.tableAt? (UInt32.ofNat i))
    inst.loadTable config segments a i

/-- Loads the data, memory by memory. -/
def loadMemories (inst : Instance) (config : Config) : Link Unit := do
  let segments ← Link.ofPool fun _ => dataSegments inst.compiled.module.data
  (List.range inst.compiled.space.memories.size).forM fun i => do
    let a ← Link.ofPool fun _ => present (inst.memoryAt? (UInt32.ofNat i))
    inst.loadMemory config segments a i

/-- The event that an instance exists. -/
def summary (inst : Instance) : Event :=
  .instantiated inst.compiled.functions.length inst.compiled.module.imports.length
    inst.memories.size inst.tables.size inst.globals.size

end Instance

namespace Compiled

/-- An instance with its imports bound and nothing else. -/
def bindImports (c : Compiled) (imports : Imports) (pool : Pool) :
    Except (Failure LinkError) Instance := do
  let r ← (imports.resolve c.space pool c.module.imports).mapError (Failure.map .binding)
  return {
    compiled := c
    hosts := r.functions
    memories := { imported := r.memories }
    tables := { imported := r.tables }
    globals := { imported := r.globals } }

/-- Instantiates a module. -/
def instantiate (c : Compiled) (config : Config) (imports : Imports) (canceled : Bool := false) :
    Link Instance := do
  let inst ← Link.ofPool (c.bindImports imports)
  let inst ← inst.allocateGlobals c.module.globals
  let inst ← inst.allocateTables c.module.tables
  let inst ← inst.allocateMemories c.module.memories config.maxPages
  if canceled then throw (.error .canceled)
  inst.loadTables config
  inst.loadMemories config
  Link.event inst.summary
  return inst

/-- Instantiates a module in a pool: the outcome, the pool after it, and the events in order. -/
def link (c : Compiled) (config : Config) (imports : Imports) (pool : Pool)
    (canceled : Bool := false) : Except (Failure LinkError) Instance × Pool × List Event :=
  let (result, w) := (c.instantiate config imports canceled).run { pool }
  (result, w.pool, w.log.reverse)

end Compiled

end FlatWasm
