import Mathlib
import FlatWasm.Instr.Read
import FlatWasm.Proofs.Leb128Grammar

/-!
# Source expressions and their bytes

A function body as the binary format describes it: instructions in their nesting, with the indices that are written in
the bytes and nothing looked up.  Two things are said about it here.  `Encoded` is the grammar of the format, as
relations between syntax and bytes, and `resolve` is what an instruction means in a module.

## Why a sequence is one type

An expression is a sequence of instructions, and some of them hold expressions again.  With a list of trees every
statement comes twice, once for trees and once for lists.  `Expr` is the sequence itself: each constructor is a first
instruction together with what follows it, so a block has a body and a rest, and one induction serves for both.

## What the grammar leaves open

A number may be padded, and the first memory may be named or left out.  So `Encoded` relates an expression to many
byte strings, but a byte string to one expression only; the readers show this, and it is not used here.

Bytes are consumed by `Instr.read` instruction by instruction, and it sees the marks that open and close blocks one at
a time.  `Token` is an instruction or a mark.
-/

namespace FlatWasm.Source

/-- The type of a block: nothing, one result, or an index of the type section. -/
inductive BlockType where
  | empty
  | value (type : ValueType)
  | index (i : UInt32)
deriving DecidableEq, Repr

/-- An instruction without a body. -/
inductive Op where
  | unreachable
  | nop
  | br (label : UInt32)
  | brIf (label : UInt32)
  | brTable (labels : List UInt32) (fallback : UInt32)
  | ret
  | call (function : UInt32)
  | callIndirect (type table : UInt32)
  | drop
  | select
  | typedSelect (type : ValueType)
  | localGet (index : UInt32)
  | localSet (index : UInt32)
  | localTee (index : UInt32)
  | globalGet (index : UInt32)
  | globalSet (index : UInt32)
  | access (access : Access) (align offset memory : UInt32)
  | memorySize (memory : UInt32)
  | memoryGrow (memory : UInt32)
  | memoryCopy (target source : UInt32)
  | memoryFill (memory : UInt32)
  | i32Const (bits : UInt32)
  | i64Const (bits : UInt64)
  | f32Const (bits : UInt32)
  | f64Const (bits : UInt64)
  | numeric (op : NumericOp)
  | truncate (op : Truncation)
deriving DecidableEq, Repr

/-- A sequence of instructions. -/
inductive Expr where
  | done
  | op (o : Op) (rest : Expr)
  | block (type : BlockType) (body rest : Expr)
  | loop (type : BlockType) (body rest : Expr)
  | ifThen (type : BlockType) (body rest : Expr)
  | ifElse (type : BlockType) (body orElse rest : Expr)
deriving DecidableEq, Repr

/-- What is read in one go: an instruction without a body, or a mark of structure. -/
inductive Token where
  | op (o : Op)
  | block (type : BlockType)
  | loop (type : BlockType)
  | ifThen (type : BlockType)
  | elseMark
  | endMark
deriving DecidableEq, Repr

/-! ## The binary format -/

/-- An index or another unsigned number of 32 bits. -/
def Word (bytes : List UInt8) (v : UInt32) : Prop :=
  Leb128.Unsigned 32 bytes v.toNat

/-- Several of them, one after the other. -/
inductive Words : List UInt8 → List UInt32 → Prop where
  | nil : Words [] []
  | cons {bytes bytes' : List UInt8} {v : UInt32} {vs : List UInt32} (h : Word bytes v)
      (hs : Words bytes' vs) : Words (bytes ++ bytes') (v :: vs)

inductive BlockType.Encoded : BlockType → List UInt8 → Prop where
  | empty : Encoded .empty [0x40]
  | value {t : ValueType} (h : t.isNumeric = true) : Encoded (.value t) [t.code]
  | index {i : UInt32} {bytes : List UInt8} (h : Leb128.Signed 33 bytes i.toNat) :
      Encoded (.index i) bytes

/-- Where an access goes: its alignment, its offset and its memory.  The first memory need not be named. -/
inductive Placed : (align offset memory : UInt32) → List UInt8 → Prop where
  | first {align offset : UInt32} {as os : List UInt8} (h : align < 64) (ha : Word as align)
      (ho : Word os offset) : Placed align offset 0 (as ++ os)
  | named {align offset memory : UInt32} {as ms os : List UInt8} (h : align < 64)
      (ha : Word as (align + 64)) (hm : Word ms memory) (ho : Word os offset) :
      Placed align offset memory (as ++ (ms ++ os))

inductive Op.Encoded : Op → List UInt8 → Prop where
  | unreachable : Encoded .unreachable [0x00]
  | nop : Encoded .nop [0x01]
  | br {l : UInt32} {bs : List UInt8} (h : Word bs l) : Encoded (.br l) (0x0c :: bs)
  | brIf {l : UInt32} {bs : List UInt8} (h : Word bs l) : Encoded (.brIf l) (0x0d :: bs)
  | brTable {ls : List UInt32} {l n : UInt32} {ns bs cs : List UInt8} (hn : Word ns n)
      (hlen : ls.length = n.toNat) (hls : Words bs ls) (hl : Word cs l) :
      Encoded (.brTable ls l) (0x0e :: (ns ++ (bs ++ cs)))
  | ret : Encoded .ret [0x0f]
  | call {f : UInt32} {bs : List UInt8} (h : Word bs f) : Encoded (.call f) (0x10 :: bs)
  | callIndirect {y x : UInt32} {bs cs : List UInt8} (hy : Word bs y) (hx : Word cs x) :
      Encoded (.callIndirect y x) (0x11 :: (bs ++ cs))
  | drop : Encoded .drop [0x1a]
  | select : Encoded .select [0x1b]
  | typedSelect {t : ValueType} {ns : List UInt8} (hn : Word ns 1) (ht : t.isNumeric = true) :
      Encoded (.typedSelect t) (0x1c :: (ns ++ [t.code]))
  | localGet {x : UInt32} {bs : List UInt8} (h : Word bs x) : Encoded (.localGet x) (0x20 :: bs)
  | localSet {x : UInt32} {bs : List UInt8} (h : Word bs x) : Encoded (.localSet x) (0x21 :: bs)
  | localTee {x : UInt32} {bs : List UInt8} (h : Word bs x) : Encoded (.localTee x) (0x22 :: bs)
  | globalGet {x : UInt32} {bs : List UInt8} (h : Word bs x) :
      Encoded (.globalGet x) (0x23 :: bs)
  | globalSet {x : UInt32} {bs : List UInt8} (h : Word bs x) :
      Encoded (.globalSet x) (0x24 :: bs)
  | access {a : Access} {op : UInt8} {align offset memory : UInt32} {bs : List UInt8}
      (ha : Access.ofOpcode? op = some a) (h : Placed align offset memory bs) :
      Encoded (.access a align offset memory) (op :: bs)
  | memorySize {x : UInt32} {bs : List UInt8} (h : Word bs x) :
      Encoded (.memorySize x) (0x3f :: bs)
  | memoryGrow {x : UInt32} {bs : List UInt8} (h : Word bs x) :
      Encoded (.memoryGrow x) (0x40 :: bs)
  | i32Const {v : ℤ} {bs : List UInt8} (h : Leb128.Signed 32 bs v) :
      Encoded (.i32Const (UInt32.ofNat (BitVec.ofInt 32 v).toNat)) (0x41 :: bs)
  | i64Const {v : ℤ} {bs : List UInt8} (h : Leb128.Signed 64 bs v) :
      Encoded (.i64Const (UInt64.ofNat (BitVec.ofInt 64 v).toNat)) (0x42 :: bs)
  | f32Const {bs : List UInt8} (h : bs.length = 4) :
      Encoded (.f32Const (UInt32.ofNat (ofLittleEndian bs))) (0x43 :: bs)
  | f64Const {bs : List UInt8} (h : bs.length = 8) :
      Encoded (.f64Const (UInt64.ofNat (ofLittleEndian bs))) (0x44 :: bs)
  | numeric (op : NumericOp) : Encoded (.numeric op) [op.code]
  | truncate {op : Truncation} {bs : List UInt8} (h : Word bs (UInt32.ofNat op.val)) :
      Encoded (.truncate op) (0xfc :: bs)
  | memoryCopy {x y : UInt32} {ns bs cs : List UInt8} (hn : Word ns 10) (hx : Word bs x)
      (hy : Word cs y) : Encoded (.memoryCopy x y) (0xfc :: (ns ++ (bs ++ cs)))
  | memoryFill {x : UInt32} {ns bs : List UInt8} (hn : Word ns 11) (hx : Word bs x) :
      Encoded (.memoryFill x) (0xfc :: (ns ++ bs))

inductive Token.Encoded : Token → List UInt8 → Prop where
  | op {o : Op} {bs : List UInt8} (h : o.Encoded bs) : Encoded (.op o) bs
  | block {t : BlockType} {bs : List UInt8} (h : t.Encoded bs) : Encoded (.block t) (0x02 :: bs)
  | loop {t : BlockType} {bs : List UInt8} (h : t.Encoded bs) : Encoded (.loop t) (0x03 :: bs)
  | ifThen {t : BlockType} {bs : List UInt8} (h : t.Encoded bs) :
      Encoded (.ifThen t) (0x04 :: bs)
  | elseMark : Encoded .elseMark [0x05]
  | endMark : Encoded .endMark [0x0b]

/-- The bytes of a sequence of instructions, without the mark that ends it. -/
inductive Expr.Encoded : Expr → List UInt8 → Prop where
  | done : Encoded .done []
  | op {o : Op} {rest : Expr} {bs rs : List UInt8} (ho : o.Encoded bs) (hr : rest.Encoded rs) :
      Encoded (.op o rest) (bs ++ rs)
  | block {t : BlockType} {body rest : Expr} {ts bs rs : List UInt8} (ht : t.Encoded ts)
      (hb : body.Encoded bs) (hr : rest.Encoded rs) :
      Encoded (.block t body rest) (0x02 :: (ts ++ (bs ++ 0x0b :: rs)))
  | loop {t : BlockType} {body rest : Expr} {ts bs rs : List UInt8} (ht : t.Encoded ts)
      (hb : body.Encoded bs) (hr : rest.Encoded rs) :
      Encoded (.loop t body rest) (0x03 :: (ts ++ (bs ++ 0x0b :: rs)))
  | ifThen {t : BlockType} {body rest : Expr} {ts bs rs : List UInt8} (ht : t.Encoded ts)
      (hb : body.Encoded bs) (hr : rest.Encoded rs) :
      Encoded (.ifThen t body rest) (0x04 :: (ts ++ (bs ++ 0x0b :: rs)))
  | ifElse {t : BlockType} {body orElse rest : Expr} {ts bs es rs : List UInt8}
      (ht : t.Encoded ts) (hb : body.Encoded bs) (he : orElse.Encoded es)
      (hr : rest.Encoded rs) :
      Encoded (.ifElse t body orElse rest)
        (0x04 :: (ts ++ (bs ++ 0x05 :: (es ++ 0x0b :: rs))))

/-- A body is the bytes of an expression and one final mark. -/
def Expr.IsBody (e : Expr) (body : List UInt8) : Prop :=
  ∃ bytes, e.Encoded bytes ∧ body = bytes ++ [0x0b]

/-! ## What instructions refer to -/

/-- The function type that a block type stands for. -/
def BlockType.resolve (space : IndexSpace) : BlockType → Option FuncType
  | .empty => some {}
  | .value t => some { results := [t] }
  | .index i => (space.type i).toOption.join

/-- A branch label, which is below the number of open frames. -/
def label? (depth : ℕ) (l : UInt32) : Option ℕ :=
  if l.toNat < depth then some l.toNat else none

def memory? (space : IndexSpace) (i : UInt32) : Option Location :=
  (space.memory i).toOption.map Prod.fst

/-- A global with its type and its width, if it has one. -/
def global? (space : IndexSpace) (i : UInt32) : Option (Location × GlobalType × UInt32) := do
  let (loc, type) ← (space.global i).toOption
  let type ← type
  let width ← type.valueType.width.toOption
  return (loc, type, width)

/-- What an instruction refers to, where `depth` frames are open; `none` if it refers to something that does not exist
or that it must not use. -/
def Op.resolve (scope : Scope) (depth : ℕ) : Op → Option Instr
  | .unreachable => some .unreachable
  | .nop => some .nop
  | .br l => (label? depth l).map .br
  | .brIf l => (label? depth l).map .brIf
  | .brTable ls l => do
    let labels ← ls.mapM (label? depth)
    let fallback ← label? depth l
    return .brTable labels fallback
  | .ret => some .ret
  | .call i => do
    let (loc, type) ← (scope.space.function i).toOption
    return .call loc (← type)
  | .callIndirect y x => do
    let type ← (scope.space.type y).toOption
    let (loc, _) ← (scope.space.table x).toOption
    return .callIndirect y (← type) loc
  | .drop => some .drop
  | .select => some .select
  | .typedSelect t => some (.typedSelect t)
  | .localGet x => (scope.locals.get? x.toNat).map (.localGet x)
  | .localSet x => (scope.locals.get? x.toNat).map (.localSet x)
  | .localTee x => (scope.locals.get? x.toNat).map (.localTee x)
  | .globalGet x => (global? scope.space x).map fun (loc, type, width) =>
    .globalGet loc type.valueType width
  | .globalSet x => do
    let (loc, type, width) ← global? scope.space x
    if type.isMutable then return .globalSet loc type.valueType width else none
  | .access a align offset x =>
    if a.allowsAlignment align then (memory? scope.space x).map (.access a offset) else none
  | .memorySize x => (memory? scope.space x).map .memorySize
  | .memoryGrow x => (memory? scope.space x).map .memoryGrow
  | .memoryCopy x y => do
    let target ← memory? scope.space x
    let source ← memory? scope.space y
    if target = source then return .memoryCopy target else none
  | .memoryFill x => (memory? scope.space x).map .memoryFill
  | .i32Const bits => some (.const32 .i32 bits)
  | .i64Const bits => some (.const64 .i64 bits)
  | .f32Const bits => some (.const32 .f32 bits)
  | .f64Const bits => some (.const64 .f64 bits)
  | .numeric op => some (.numeric op)
  | .truncate op => some (.truncate op)

def Token.resolve (scope : Scope) (depth : ℕ) : Token → Option Instr
  | .op o => o.resolve scope depth
  | .block t => (t.resolve scope.space).map .block
  | .loop t => (t.resolve scope.space).map .loop
  | .ifThen t => (t.resolve scope.space).map .ifThen
  | .elseMark => some .elseMark
  | .endMark => some .endMark

end FlatWasm.Source
