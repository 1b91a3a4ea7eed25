import FlatWasm.Text.Quoted

/-!
# Flags

A flag is written `-name` or `--name`, and takes its value after `=`. A switch takes a value only that way; a number
can also take it from the next argument. Flags end at the first argument that is none, or after `--`.
-/

namespace FlatWasm.CommandLine

/-- What a flag stands for. -/
inductive FlagKind where
  | switch
  | number (default : UInt64)
deriving DecidableEq, Repr

/-- A flag. -/
structure Flag where
  name : String
  kind : FlagKind
  usage : String
deriving DecidableEq, Repr

namespace Flag

/-- What a usage text says of a flag. A switch of one letter has its text on the same line. -/
def help (f : Flag) : String :=
  match f.kind with
  | .switch =>
    let gap := if f.name.length ≤ 1 then "\t" else "\n    \t"
    s!"  -{f.name}{gap}{f.usage}\n"
  | .number default =>
    let shown := if default = 0 then "" else s!" (default {default.toNat})"
    s!"  -{f.name} uint\n    \t{f.usage}{shown}\n"

/-- What a usage text says of some flags, in the order of their names. -/
def helpAll (flags : List Flag) : String :=
  String.join ((flags.mergeSort fun a b => a.name ≤ b.name).map help)

end Flag

/-! ## Values -/

/-- The value of a flag. -/
inductive FlagValue where
  | switch (value : Bool)
  | number (value : UInt64)
deriving DecidableEq, Repr

/-- What is wrong with the text of a value. -/
inductive ValueError where
  | malformed
  | tooLarge
deriving DecidableEq, Repr

def ValueError.message : ValueError → String
  | .malformed => "parse error"
  | .tooLarge => "value out of range"

/-- A truth value. -/
def parseSwitch (s : String) : Except ValueError Bool :=
  if s ∈ ["1", "t", "T", "TRUE", "true", "True"] then .ok true
  else if s ∈ ["0", "f", "F", "FALSE", "false", "False"] then .ok false
  else .error .malformed

/-- The value of a digit, also of one above nine. -/
def digitValue? (c : Char) : Option Nat :=
  if c.isDigit then some (c.toNat - '0'.toNat)
  else if 'a' ≤ c ∧ c ≤ 'z' then some (c.toNat - 'a'.toNat + 10)
  else if 'A' ≤ c ∧ c ≤ 'Z' then some (c.toNat - 'A'.toNat + 10)
  else none

/-- The base of a number and its digits: `0b`, `0o` and `0x` name a base, and so does a zero in front. -/
def splitBase (cs : List Char) : Nat × List Char :=
  match cs with
  | '0' :: c :: d :: rest =>
    if c.toLower = 'b' then (2, d :: rest)
    else if c.toLower = 'o' then (8, d :: rest)
    else if c.toLower = 'x' then (16, d :: rest)
    else (8, c :: d :: rest)
  | '0' :: rest => (8, rest)
  | cs => (10, cs)

/-- Underscores stand between digits, or between the base and the first digit. `afterDigit` says whether one may
stand here. -/
def underscoresOk (afterDigit : Bool) : List Char → Bool
  | [] => true
  | ['_'] => false
  | '_' :: c :: rest => afterDigit && c ≠ '_' && underscoresOk true rest
  | _ :: rest => underscoresOk true rest

/-- The number that digits denote. -/
def digitsValue (base : Nat) : (value : Nat) → List Char → Except ValueError Nat
  | value, [] => .ok value
  | value, c :: cs =>
    match digitValue? c with
    | some d =>
      if base ≤ d then .error .malformed
      else if UInt64.size ≤ value * base + d then .error .tooLarge
      else digitsValue base (value * base + d) cs
    | none => .error .malformed

/-- A number of 64 bits. -/
def parseNumber (s : String) : Except ValueError UInt64 := do
  let cs := s.toList
  if cs.isEmpty then throw .malformed
  let (base, digits) := splitBase cs
  let value ← digitsValue base 0 (digits.filter (· ≠ '_'))
  if underscoresOk (base ≠ 10) digits then return UInt64.ofNat value else throw .malformed

/-! ## Arguments -/

/-- Why arguments are refused. -/
inductive FlagError where
  | malformed (argument : String)
  | undefined (name : String)
  /-- Help is asked for under a name that is not a flag. -/
  | help
  | missingValue (name : String)
  | badSwitch (name value : String) (cause : ValueError)
  | badNumber (name value : String) (cause : ValueError)
deriving DecidableEq, Repr

def FlagError.message? : FlagError → Option String
  | .malformed argument => some s!"bad flag syntax: {argument}"
  | .undefined name => some s!"flag provided but not defined: -{name}"
  | .help => none
  | .missingValue name => some s!"flag needs an argument: -{name}"
  | .badSwitch name value cause =>
    some s!"invalid boolean value {Text.quote value} for -{name}: {cause.message}"
  | .badNumber name value cause =>
    some s!"invalid value {Text.quote value} for flag -{name}: {cause.message}"

/-- An argument that looks like a flag: its name, and what stands after `=`. -/
structure Written where
  name : String
  value : Option String
deriving DecidableEq, Repr

/-- What an argument is. -/
inductive Argument where
  | flag (written : Written)
  /-- The mark after which nothing is a flag. -/
  | endOfFlags
  | other
  | malformed
deriving DecidableEq, Repr

/-- Takes a flag apart, without its dashes. -/
def splitValue (cs : List Char) : Written :=
  match cs.span (· ≠ '=') with
  | (name, '=' :: value) => ⟨String.ofList name, some (String.ofList value)⟩
  | (name, _) => ⟨String.ofList name, none⟩

/-- A flag without its dashes. -/
def flagOf (cs : List Char) : Argument :=
  match cs with
  | [] | '-' :: _ | '=' :: _ => .malformed
  | cs => .flag (splitValue cs)

/-- Tells flags from other arguments. -/
def Argument.ofString (s : String) : Argument :=
  match s.toList with
  | ['-', '-'] => .endOfFlags
  | '-' :: '-' :: cs => flagOf cs
  | '-' :: c :: cs => flagOf (c :: cs)
  | _ => .other

/-- What arguments set, the latest first, and the arguments that are left. -/
structure Parsed where
  settings : List (String × FlagValue)
  rest : List String
deriving DecidableEq, Repr

namespace Parsed

/-- Whether a switch is on. -/
def isOn (p : Parsed) (name : String) : Bool :=
  p.settings.lookup name = some (.switch true)

/-- The value of a number that has a default. -/
def number (p : Parsed) (name : String) (default : UInt64) : UInt64 :=
  match p.settings.lookup name with
  | some (.number v) => v
  | _ => default

end Parsed

/-- Sets a flag from its text. -/
def setFlag (f : Flag) (text : String) : Except FlagError FlagValue :=
  match f.kind with
  | .switch => ((parseSwitch text).map .switch).mapError (.badSwitch f.name text)
  | .number _ => ((parseNumber text).map .number).mapError (.badNumber f.name text)

/-- Reads flags from the front of some arguments. `settings` are those that are set before. -/
def parseFlags (flags : List Flag) (settings : List (String × FlagValue)) :
    List String → Except FlagError Parsed
  | [] => .ok { settings, rest := [] }
  | arg :: args =>
    match Argument.ofString arg with
    | .other => .ok { settings, rest := arg :: args }
    | .endOfFlags => .ok { settings, rest := args }
    | .malformed => .error (.malformed arg)
    | .flag written =>
      match flags.find? (·.name = written.name) with
      | none =>
        .error (if written.name ∈ ["help", "h"] then .help else .undefined written.name)
      | some f =>
        match written.value, f.kind, args with
        | some text, _, args => do
          parseFlags flags ((f.name, ← setFlag f text) :: settings) args
        | none, .switch, args => parseFlags flags ((f.name, .switch true) :: settings) args
        | none, .number _, text :: args => do
          parseFlags flags ((f.name, ← setFlag f text) :: settings) args
        | none, .number _, [] => .error (.missingValue f.name)

end FlatWasm.CommandLine
