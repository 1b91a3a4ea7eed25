import FlatWasm.CommandLine.Flag
import FlatWasm.Linking.Instantiate
import FlatWasm.Text.Escaped

/-!
# Commands

The command line compiles a binary, and instantiates one that needs no imports. What it is asked for is read off the
arguments (`Invocation.ofArgs`): either everything is known then, or there is one file to read. What comes of the
file is `Task.run`. Both are functions; reading the file and printing are left to the outside.
-/

namespace FlatWasm.CommandLine

/-- What a run leaves behind. -/
structure Output where
  exit : UInt32 := 0
  stdout : String := ""
  stderr : String := ""
deriving DecidableEq, Repr

/-! ## Usage -/

/-- Each line ends with a newline. -/
def unlines (lines : List String) : String :=
  String.join (lines.map (· ++ "\n"))

def usage : String :=
  unlines
    ["loadwasm CLI", "", "Usage:", "  loadwasm <command>", "", "Commands:",
     "  compile\tValidates and transpiles a WebAssembly binary",
     "  instantiate\tInstantiates a WebAssembly binary without imports"]

def commandUsage (command : String) (flags : List Flag) : String :=
  unlines
    ["loadwasm CLI", "", "Usage:", s!"  loadwasm {command} <options> <path to wasm file>", "",
     "Options:"] ++ Flag.helpAll flags

/-! ## Flags -/

def helpFlag : Flag :=
  { name := "h", kind := .switch, usage := "print usage" }

/-- The number of pages that a memory may have unless a flag says otherwise. -/
def defaultPages : UInt64 := 65536

/-- The flags of every command. -/
def loaderFlags : List Flag :=
  [helpFlag,
   { name := "debug"
     kind := .switch
     usage := "log debug messages to stderr. Per-instruction tracing also needs a build with " ++
       "the loadwasm_debug tag" },
   { name := "memory-limit-pages"
     kind := .number defaultPages
     usage := "maximum pages of any memory, at most 65536" }]

def compileFlags : List Flag :=
  loaderFlags ++
    [{ name := "disassemble"
       kind := .switch
       usage := "print the transpiled body of each function" }]

def instantiateFlags : List Flag :=
  loaderFlags ++
    [{ name := "no-segment-growth"
       kind := .switch
       usage := "fail instead of growing a memory or table that a segment doesn't fit" }]

/-- The configuration that flags ask for. -/
def configOf (p : Parsed) : Config :=
  let pages := min (p.number "memory-limit-pages" defaultPages) 0xffffffff
  let config : Config := { growsForSegments := !p.isOn "no-segment-growth" }
  config.withMaxPages pages.toUInt32

/-! ## Tasks -/

/-- What to do with a file. -/
inductive Action where
  | compile (disassemble : Bool)
  | instantiate
deriving DecidableEq, Repr

/-- What to do with a file, how, and whether to log it. -/
structure Task where
  action : Action
  config : Config
  debug : Bool
deriving DecidableEq, Repr

/-- A field of a log line. -/
def fieldText : String × FieldValue → String
  | (name, value) =>
    Text.jsonString name ++ ": " ++
      match value with
      | .number n => toString n
      | .text s => Text.jsonString s
      | .flag b => if b then "true" else "false"

/-- A log line: level, message and fields. -/
def eventLine (e : Event) : String :=
  "DEBUG\t" ++ e.message ++ "\t\x7b" ++ ", ".intercalate (e.fields.map fieldText) ++ "\x7d\n"

/-- The listing of a function. -/
def functionListing (f : Function) : String :=
  s!"function[{f.index}] {f.type.text}:\n" ++ Flat.format f.body.bytes

/-- One line for each store that an instance defines. -/
def storeLines {α : Type} (kind : String) (text : α → Except Defect String) (stores : List α) :
    Except Defect (List String) :=
  stores.zipIdx.mapM fun (s, i) => return s!"{kind}[{i}]: {← text s}"

/-- The stores that an instance defines. -/
def storesText (inst : Instance) (pool : Pool) : Except Defect String := do
  let memories ← storeLines "memory" (fun m => .ok s!"{Memory.pages m} pages")
    (inst.memories.defined.filterMap (pool.memories[·]?))
  let tables ← storeLines "table" (fun t => .ok s!"{Table.length t} entries")
    (inst.tables.defined.filterMap (pool.tables[·]?))
  let globals ← storeLines "global" GlobalCell.text
    (inst.globals.defined.filterMap (pool.globals[·]?))
  return unlines (memories ++ tables ++ globals)

/-- A run that met a defect. -/
def broken (d : Defect) : Output :=
  { exit := 2, stderr := (d.message?.getD "") ++ "\n" }

/-- A run that failed. -/
def failed {ε : Type} (what : String) (message : ε → String) : Failure ε → Output
  | .error e => { exit := 1, stderr := s!"error {what} wasm binary: {message e}\n" }
  | .defect d => broken d

namespace Output

/-- Puts lines of a log before what is printed. -/
def afterEvents (o : Output) (events : List Event) : Output :=
  { o with stderr := String.join (events.map eventLine) ++ o.stderr }

end Output

namespace Task

/-- The events that are shown. -/
def shown (t : Task) (events : List Event) : List Event :=
  if t.debug then events else []

/-- What instantiation prints. -/
def instantiate (t : Task) (c : Compiled) : Output :=
  let (result, pool, events) := c.link t.config {} {}
  let output :=
    match result with
    | .error e => failed "instantiating" LinkError.message e
    | .ok inst =>
      match storesText inst pool with
      | .ok stdout => { stdout }
      | .error d => broken d
  output.afterEvents (t.shown events)

/-- What comes of a module. -/
def runModule (t : Task) (m : Module) : Output :=
  let output :=
    match m.compile t.config with
    | .error e => failed "compiling" CompileError.message e
    | .ok c =>
      match t.action with
      | .compile false => {}
      | .compile true => { stdout := String.join (c.functions.map functionListing) }
      | .instantiate => t.instantiate c
  output.afterEvents (t.shown (m.compilationEvents t.config false t.debug))

/-- What comes of a file, or of the reason why it cannot be read. -/
def run (t : Task) (file : Except String (List UInt8)) : Output :=
  match file with
  | .error reason => { exit := 1, stderr := s!"error reading wasm binary: {reason}\n" }
  | .ok bytes =>
    match decodeSource (some bytes) with
    | .error e => failed "compiling" CompileError.message (.error e)
    | .ok m => t.runModule m

end Task

/-! ## Arguments -/

/-- What arguments ask for. -/
inductive Invocation where
  | done (output : Output)
  | onFile (task : Task) (path : String)
deriving DecidableEq, Repr

/-- Arguments that are refused, or help under another name. -/
def refused (program : String) (flags : List Flag) (e : FlagError) : Output :=
  let about := s!"Usage of {program}:\n" ++ Flag.helpAll flags
  match e.message? with
  | some message => { exit := 2, stderr := s!"{message}\n{about}" }
  | none => { stderr := about }

/-- A command with its arguments. -/
def commandOfArgs (command : String) (flags : List Flag) (action : Parsed → Action)
    (args : List String) : Invocation :=
  match parseFlags flags [] args with
  | .error e => .done (refused command flags e)
  | .ok p =>
    if p.isOn "h" then .done { stderr := commandUsage command flags }
    else
      match p.rest with
      | [] =>
        .done { exit := 1, stderr := "missing path to wasm file\n" ++ commandUsage command flags }
      | path :: _ =>
        .onFile { action := action p, config := configOf p, debug := p.isOn "debug" } path

/-- What arguments ask for. -/
def Invocation.ofArgs (args : List String) : Invocation :=
  match parseFlags [helpFlag] [] args with
  | .error e => .done (refused "loadwasm" [helpFlag] e)
  | .ok p =>
    if p.isOn "h" then .done { stderr := usage }
    else
      match p.rest with
      | [] => .done { stderr := usage }
      | "compile" :: args =>
        commandOfArgs "compile" compileFlags (fun p => .compile (p.isOn "disassemble")) args
      | "instantiate" :: args =>
        commandOfArgs "instantiate" instantiateFlags (fun _ => .instantiate) args
      | _ :: _ => .done { exit := 1, stderr := "invalid command\n" ++ usage }

end FlatWasm.CommandLine
