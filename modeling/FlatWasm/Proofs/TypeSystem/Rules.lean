import Mathlib
import FlatWasm.Function
import FlatWasm.Proofs.Source.Syntax

/-!
# The type system of source expressions

The typing rules of the format, as derivations.  An expression has a type `ts → us` if it turns a stack of operands of
types `ts` into one of types `us`; here stacks are listed from the bottom up, so the top is last.  Nothing is computed:
a rule for an instruction that never returns, such as `br`, holds for every stack that may come after it, and a
derivation picks one.

## The bottom type

Since a derivation picks the types of operands in code that cannot run, it can nearly always pick the types that the code
asks for.  A branch through a table is the exception: its labels may take values of different types, and then no value
can be picked for both.  So there is a type `bottom` below all others, for operands only, and an operand may be used where
a larger type is asked for.  No declared type is `bottom`.

## What a context is

`Context` holds what indices stand for, as plain lists.  `IndexSpace.context` reads it off the index spaces of a module: no
location of an entity is in it, since types do not depend on whether something is imported.
-/

namespace FlatWasm.Source

/-- What the indices in an expression stand for. -/
structure Context where
  types : List FuncType := []
  functions : List FuncType := []
  globals : List GlobalType := []
  /-- How many memories there are. -/
  memories : ℕ := 0
  /-- How many tables there are. -/
  tables : ℕ := 0
  locals : List ValueType := []
  /-- What a branch to each open frame carries, from the inside out. -/
  labels : List (List ValueType) := []
  results : List ValueType := []

namespace Context

/-- The context inside of a frame. -/
def inside (C : Context) (label : List ValueType) : Context :=
  { C with labels := label :: C.labels }

/-- The function type that a block type stands for. -/
def blockType? (C : Context) : BlockType → Option FuncType
  | .empty => some {}
  | .value t => some { results := [t] }
  | .index i => C.types[i.toNat]?

end Context

/-- An operand of one type may be used as one of another. -/
def Below (t u : ValueType) : Prop :=
  t = u ∨ t = .bottom

/-- The same for several operands. -/
def AllBelow : List ValueType → List ValueType → Prop :=
  List.Forall₂ Below

open ValueType in
/-- What the numeric operators take and leave, with the first and the last opcode of those that are alike. -/
def operatorTypes : List (FuncType × ℕ × ℕ) :=
  -- tests and comparisons
  [(⟨[i32], [i32]⟩, 0x45, 0x45), (⟨[i64], [i32]⟩, 0x50, 0x50),
   (⟨[i32, i32], [i32]⟩, 0x46, 0x4f), (⟨[i64, i64], [i32]⟩, 0x51, 0x5a),
   (⟨[f32, f32], [i32]⟩, 0x5b, 0x60), (⟨[f64, f64], [i32]⟩, 0x61, 0x66),
   -- one operand
   (⟨[i32], [i32]⟩, 0x67, 0x69), (⟨[i64], [i64]⟩, 0x79, 0x7b),
   (⟨[f32], [f32]⟩, 0x8b, 0x91), (⟨[f64], [f64]⟩, 0x99, 0x9f),
   -- two operands
   (⟨[i32, i32], [i32]⟩, 0x6a, 0x78), (⟨[i64, i64], [i64]⟩, 0x7c, 0x8a),
   (⟨[f32, f32], [f32]⟩, 0x92, 0x98), (⟨[f64, f64], [f64]⟩, 0xa0, 0xa6),
   -- conversions
   (⟨[i64], [i32]⟩, 0xa7, 0xa7), (⟨[f32], [i32]⟩, 0xa8, 0xa9), (⟨[f64], [i32]⟩, 0xaa, 0xab),
   (⟨[i32], [i64]⟩, 0xac, 0xad), (⟨[f32], [i64]⟩, 0xae, 0xaf), (⟨[f64], [i64]⟩, 0xb0, 0xb1),
   (⟨[i32], [f32]⟩, 0xb2, 0xb3), (⟨[i64], [f32]⟩, 0xb4, 0xb5), (⟨[f64], [f32]⟩, 0xb6, 0xb6),
   (⟨[i32], [f64]⟩, 0xb7, 0xb8), (⟨[i64], [f64]⟩, 0xb9, 0xba), (⟨[f32], [f64]⟩, 0xbb, 0xbb),
   -- the same bits as another type
   (⟨[f32], [i32]⟩, 0xbc, 0xbc), (⟨[f64], [i64]⟩, 0xbd, 0xbd),
   (⟨[i32], [f32]⟩, 0xbe, 0xbe), (⟨[i64], [f64]⟩, 0xbf, 0xbf),
   -- sign extensions
   (⟨[i32], [i32]⟩, 0xc0, 0xc1), (⟨[i64], [i64]⟩, 0xc2, 0xc4)]

open ValueType in
/-- What the saturating truncations take and leave, in order. -/
def truncationTypes : List FuncType :=
  [⟨[f32], [i32]⟩, ⟨[f32], [i32]⟩, ⟨[f64], [i32]⟩, ⟨[f64], [i32]⟩,
   ⟨[f32], [i64]⟩, ⟨[f32], [i64]⟩, ⟨[f64], [i64]⟩, ⟨[f64], [i64]⟩]

/-- The types of an instruction without a body. -/
inductive Op.HasType (C : Context) : Op → List ValueType → List ValueType → Prop where
  | unreachable (ts us : List ValueType) : HasType C .unreachable ts us
  | nop : HasType C .nop [] []
  | br {l : UInt32} {ts : List ValueType} (vs us : List ValueType)
      (h : C.labels[l.toNat]? = some ts) : HasType C (.br l) (vs ++ ts) us
  | brIf {l : UInt32} {ts : List ValueType} (h : C.labels[l.toNat]? = some ts) :
      HasType C (.brIf l) (ts ++ [.i32]) ts
  | brTable {ls : List UInt32} {l : UInt32} (vs ts us : List ValueType)
      (h : ∀ x ∈ ls ++ [l], ∃ label, C.labels[x.toNat]? = some label ∧ AllBelow ts label) :
      HasType C (.brTable ls l) (vs ++ ts ++ [.i32]) us
  | ret (vs us : List ValueType) : HasType C .ret (vs ++ C.results) us
  | call {x : UInt32} {type : FuncType} (h : C.functions[x.toNat]? = some type) :
      HasType C (.call x) type.params type.results
  | callIndirect {y x : UInt32} {type : FuncType} (hy : C.types[y.toNat]? = some type)
      (hx : x.toNat < C.tables) :
      HasType C (.callIndirect y x) (type.params ++ [.i32]) type.results
  | drop (t : ValueType) : HasType C .drop [t] []
  | select {t : ValueType} (h : t.isNumeric = true ∨ t = .bottom) :
      HasType C .select [t, t, .i32] [t]
  | typedSelect {t : ValueType} (h : t.isNumeric = true) :
      HasType C (.typedSelect t) [t, t, .i32] [t]
  | localGet {x : UInt32} {t : ValueType} (h : C.locals[x.toNat]? = some t) :
      HasType C (.localGet x) [] [t]
  | localSet {x : UInt32} {t : ValueType} (h : C.locals[x.toNat]? = some t) :
      HasType C (.localSet x) [t] []
  | localTee {x : UInt32} {t : ValueType} (h : C.locals[x.toNat]? = some t) :
      HasType C (.localTee x) [t] [t]
  | globalGet {x : UInt32} {g : GlobalType} (h : C.globals[x.toNat]? = some g) :
      HasType C (.globalGet x) [] [g.valueType]
  | globalSet {x : UInt32} {g : GlobalType} (h : C.globals[x.toNat]? = some g)
      (hm : g.isMutable = true) : HasType C (.globalSet x) [g.valueType] []
  | load {t : ValueType} {kind : LoadKind} {align offset x : UInt32} (hx : x.toNat < C.memories)
      (ha : 2 ^ align.toNat ≤ kind.bytes) :
      HasType C (.access (.load t kind) align offset x) [.i32] [t]
  | store {t : ValueType} {width : StoreWidth} {align offset x : UInt32}
      (hx : x.toNat < C.memories) (ha : 2 ^ align.toNat ≤ width.bytes) :
      HasType C (.access (.store t width) align offset x) [.i32, t] []
  | memorySize {x : UInt32} (hx : x.toNat < C.memories) : HasType C (.memorySize x) [] [.i32]
  | memoryGrow {x : UInt32} (hx : x.toNat < C.memories) :
      HasType C (.memoryGrow x) [.i32] [.i32]
  -- within one memory only
  | memoryCopy {x : UInt32} (hx : x.toNat < C.memories) :
      HasType C (.memoryCopy x x) [.i32, .i32, .i32] []
  | memoryFill {x : UInt32} (hx : x.toNat < C.memories) :
      HasType C (.memoryFill x) [.i32, .i32, .i32] []
  | i32Const (bits : UInt32) : HasType C (.i32Const bits) [] [.i32]
  | i64Const (bits : UInt64) : HasType C (.i64Const bits) [] [.i64]
  | f32Const (bits : UInt32) : HasType C (.f32Const bits) [] [.f32]
  | f64Const (bits : UInt64) : HasType C (.f64Const bits) [] [.f64]
  | numeric {op : NumericOp} {type : FuncType} {first last : ℕ}
      (h : (type, first, last) ∈ operatorTypes) (hf : first ≤ op.code.toNat)
      (hl : op.code.toNat ≤ last) : HasType C (.numeric op) type.params type.results
  | truncate {op : Truncation} {type : FuncType} (h : truncationTypes[op.val]? = some type) :
      HasType C (.truncate op) type.params type.results

/-- The types of a sequence of instructions.  Below what an instruction takes, the stack may be anything, and stays as it
is; inside of a block there is nothing below what the block takes. -/
inductive Expr.HasType : Context → Expr → List ValueType → List ValueType → Prop where
  | done {C : Context} (ts : List ValueType) : HasType C .done ts ts
  | op {C : Context} {o : Op} {rest : Expr} {below ts ps rs us : List ValueType}
      (ho : o.HasType C ps rs) (hts : AllBelow ts ps) (hr : HasType C rest (below ++ rs) us) :
      HasType C (.op o rest) (below ++ ts) us
  | block {C : Context} {t : BlockType} {type : FuncType} {body rest : Expr}
      {below ts us : List ValueType} (ht : C.blockType? t = some type)
      (hb : HasType (C.inside type.results) body type.params type.results)
      (hts : AllBelow ts type.params) (hr : HasType C rest (below ++ type.results) us) :
      HasType C (.block t body rest) (below ++ ts) us
  -- a branch to a loop goes to its start
  | loop {C : Context} {t : BlockType} {type : FuncType} {body rest : Expr}
      {below ts us : List ValueType} (ht : C.blockType? t = some type)
      (hb : HasType (C.inside type.params) body type.params type.results)
      (hts : AllBelow ts type.params) (hr : HasType C rest (below ++ type.results) us) :
      HasType C (.loop t body rest) (below ++ ts) us
  -- the branch that is missing leaves what it takes
  | ifThen {C : Context} {t : BlockType} {type : FuncType} {body rest : Expr}
      {below ts us : List ValueType} (ht : C.blockType? t = some type)
      (hb : HasType (C.inside type.results) body type.params type.results)
      (he : type.params = type.results) (hts : AllBelow ts (type.params ++ [.i32]))
      (hr : HasType C rest (below ++ type.results) us) :
      HasType C (.ifThen t body rest) (below ++ ts) us
  | ifElse {C : Context} {t : BlockType} {type : FuncType} {body orElse rest : Expr}
      {below ts us : List ValueType} (ht : C.blockType? t = some type)
      (hb : HasType (C.inside type.results) body type.params type.results)
      (he : HasType (C.inside type.results) orElse type.params type.results)
      (hts : AllBelow ts (type.params ++ [.i32]))
      (hr : HasType C rest (below ++ type.results) us) :
      HasType C (.ifElse t body orElse rest) (below ++ ts) us

end FlatWasm.Source

namespace FlatWasm

/-- The entries of a namespace, in the order of their indices. -/
def Namespace.entries {α : Type} (n : Namespace α) : List α :=
  n.imported ++ n.defined

/-- What indices stand for in a module, for code with some locals, results and open frames. -/
def IndexSpace.context (space : IndexSpace) (locals results : List ValueType)
    (labels : List (List ValueType)) : Source.Context where
  types := space.types.reduceOption
  functions := space.functions.entries.filterMap fun i => space.types[i.toNat]?.join
  globals := space.globals.entries.reduceOption
  memories := space.memories.entries.length
  tables := space.tables.entries.length
  locals
  labels
  results

/-- The context of the body of a function: its parameters come before its declared locals, and the outermost label is the
function itself. -/
def Function.context (f : Function) (space : IndexSpace) : Source.Context :=
  space.context (f.type.params ++ f.locals.toList) f.type.results [f.type.results]

end FlatWasm
