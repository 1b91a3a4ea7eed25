import Mathlib
import FlatWasm.Function
import FlatWasm.Proofs.Source.Syntax
import FlatWasm.Proofs.Typing.Heights

/-!
# A machine for source expressions

Structured control as the format defines it: a block runs its body on operands of its own, and a branch leaves as many
frames as its label says and carries the values that the label takes.  The machine runs an expression as it is nested.
It knows no offsets.

## What is left open

Numeric operators, loads and stores, globals, tables and calls are not interpreted.  A `World` says what each of them
does: it is any function of the instruction, its arguments and a state outside of the function.  It may trap.  The
machine keeps a list of what the world was asked to do, in order.

## Why fuel bounds rounds

Only a loop can run forever, and only by branches back to its start.  `exec` is structural in the expression, and fuel
is spent on branches back to a loop and on nothing else.  So a run that ends needs finitely much of it, and a run that
has spent `n` has gone back at least `n` times.
-/

namespace FlatWasm.Machine

open Source

/-- A value.  Those of 32 bits are in the low half. -/
abbrev Word := UInt64

/-- Whether a condition holds. -/
def isTrue (v : Word) : Bool :=
  v.toUInt32 != 0

/-- What instructions do that are not about control: the state outside after one, and its results, if it does not
trap. -/
structure World (σ : Type) where
  act : Instr → List Word → σ → σ × Option (List Word)
  /-- An instruction has as many results as its type says. -/
  length_results {i : Instr} {args results : List Word} {s s' : σ} {a b : ℕ}
    (he : i.effect? = some (a, b)) (h : act i args s = (s', some results)) : results.length = b

/-- The state outside of a function, and what has been done to it, in order. -/
structure Outside (σ : Type) where
  state : σ
  performed : List (Instr × List Word) := []

variable {σ : Type}

/-- Performs an instruction. -/
def World.perform (w : World σ) (i : Instr) (args : List Word) (o : Outside σ) :
    Outside σ × Option (List Word) :=
  let (state, results) := w.act i args o.state
  (⟨state, o.performed ++ [(i, args)]⟩, results)

/-- Performs an instruction on a stack, the top first.  The answer is the state outside and the stack afterward, if the
instruction does not trap; there is none if there are too few arguments. -/
def World.apply (w : World σ) (i : Instr) (stack : List Word) (o : Outside σ) :
    Option (Outside σ × Option (List Word)) :=
  match i.effect? with
  | none => none
  | some (a, _) =>
    if a ≤ stack.length then
      let (o, results) := w.perform i (stack.take a).reverse o
      some (o, results.map fun results => results.reverse ++ stack.drop a)
    else none

/-- The state of a function that runs. -/
structure Config (σ : Type) where
  /-- The parameters, then the declared locals. -/
  locals : List Word
  /-- The operands of the innermost frame, the top one first. -/
  operands : List Word
  outside : Outside σ

/-- How code ends. -/
inductive Outcome (σ : Type) where
  /-- It runs through to its end. -/
  | next (c : Config σ)
  /-- It branches to a label. -/
  | branch (label : ℕ) (c : Config σ)
  | trap (o : Outside σ)
  /-- There is no fuel to go on. -/
  | timeout (o : Outside σ)
  /-- It has no meaning. -/
  | stuck

namespace Outcome

/-- What comes after code that runs through to its end. -/
def andThen (out : Outcome σ) (k : Config σ → Outcome σ) : Outcome σ :=
  match out with
  | .next c => k c
  | out => out

/-- The end of a frame whose label takes `arity` values, above the operands `outer`. -/
def leave (arity : ℕ) (outer : List Word) : Outcome σ → Outcome σ
  | .next c => .next { c with operands := c.operands ++ outer }
  | .branch 0 c =>
    if arity ≤ c.operands.length then
      .next { c with operands := c.operands.take arity ++ outer }
    else .stuck
  | .branch (label + 1) c => .branch label c
  | out => out

end Outcome

/-- An instruction without a body, where `depth` frames are open.  To return is to branch to the outermost. -/
def World.step (w : World σ) (depth : ℕ) (i : Instr) (c : Config σ) : Outcome σ :=
  match i with
  | .nop => .next c
  | .unreachable => .trap c.outside
  | .br label => .branch label c
  | .ret => .branch (depth - 1) c
  | .brIf label =>
    match c.operands with
    | v :: vs =>
      if isTrue v then .branch label { c with operands := vs } else .next { c with operands := vs }
    | [] => .stuck
  | .brTable labels fallback =>
    match c.operands with
    | v :: vs => .branch (labels.getD v.toUInt32.toNat fallback) { c with operands := vs }
    | [] => .stuck
  | .drop =>
    match c.operands with
    | _ :: vs => .next { c with operands := vs }
    | [] => .stuck
  | .select | .typedSelect _ =>
    match c.operands with
    | v :: second :: first :: vs =>
      .next { c with operands := (if isTrue v then first else second) :: vs }
    | _ => .stuck
  | .localGet x _ =>
    match c.locals[x.toNat]? with
    | some v => .next { c with operands := v :: c.operands }
    | none => .stuck
  | .localSet x _ =>
    match c.operands with
    | v :: vs =>
      if x.toNat < c.locals.length then
        .next { c with locals := c.locals.set x.toNat v, operands := vs }
      else .stuck
    | [] => .stuck
  | .localTee x _ =>
    match c.operands with
    | v :: vs =>
      if x.toNat < c.locals.length then
        .next { c with locals := c.locals.set x.toNat v, operands := v :: vs }
      else .stuck
    | [] => .stuck
  | .const32 _ bits => .next { c with operands := bits.toUInt64 :: c.operands }
  | .const64 _ bits => .next { c with operands := bits :: c.operands }
  | .block _ | .loop _ | .ifThen _ | .elseMark | .endMark => .stuck
  | i =>
    match w.apply i c.operands c.outside with
    | some (o, some vs) => .next { c with operands := vs, outside := o }
    | some (o, none) => .trap o
    | none => .stuck

/-- Runs a body, and again after each branch back to its start, which takes `arity` values. -/
def again (arity : ℕ) (body : ℕ → Config σ → Outcome σ) : ℕ → Config σ → Outcome σ
  | 0, c =>
    match body 0 c with
    | .branch 0 c => .timeout c.outside
    | out => out
  | fuel + 1, c =>
    match body (fuel + 1) c with
    | .branch 0 c =>
      if arity ≤ c.operands.length then
        again arity body fuel { c with operands := c.operands.take arity }
      else .stuck
    | out => out

/-- Runs a frame on the top `arity` operands. -/
def inFrame (arity : ℕ) (c : Config σ) (body : Config σ → List Word → Outcome σ) : Outcome σ :=
  if arity ≤ c.operands.length then
    body { c with operands := c.operands.take arity } (c.operands.drop arity)
  else .stuck

/-- Runs an expression, where `depth` frames are open. -/
def World.exec (w : World σ) (scope : Scope) : Expr → (depth fuel : ℕ) → Config σ → Outcome σ
  | .done, _, _, c => .next c
  | .op o rest, depth, fuel, c =>
    match o.resolve scope depth with
    | none => .stuck
    | some i => (w.step depth i c).andThen (w.exec scope rest depth fuel)
  | .block t body rest, depth, fuel, c =>
    match t.resolve scope.space with
    | none => .stuck
    | some type =>
      (inFrame type.params.length c fun c outer =>
        (w.exec scope body (depth + 1) fuel c).leave type.results.length outer).andThen
          (w.exec scope rest depth fuel)
  | .loop t body rest, depth, fuel, c =>
    match t.resolve scope.space with
    | none => .stuck
    | some type =>
      (inFrame type.params.length c fun c outer =>
        (again type.params.length (w.exec scope body (depth + 1)) fuel c).leave
          type.params.length outer).andThen (w.exec scope rest depth fuel)
  | .ifThen t body rest, depth, fuel, c =>
    match t.resolve scope.space, c.operands with
    | some type, v :: vs =>
      (inFrame type.params.length { c with operands := vs } fun c outer =>
        (if isTrue v then w.exec scope body (depth + 1) fuel c else .next c).leave
          type.results.length outer).andThen (w.exec scope rest depth fuel)
    | _, _ => .stuck
  | .ifElse t body orElse rest, depth, fuel, c =>
    match t.resolve scope.space, c.operands with
    | some type, v :: vs =>
      (inFrame type.params.length { c with operands := vs } fun c outer =>
        (if isTrue v then w.exec scope body (depth + 1) fuel c
          else w.exec scope orElse (depth + 1) fuel c).leave
          type.results.length outer).andThen (w.exec scope rest depth fuel)
    | _, _ => .stuck

/-- An operator that is accepted is a step, and then the rest runs. -/
theorem World.exec_op (w : World σ) {scope : Scope} {o : Op} {rest : Expr} {depth : ℕ} {i : Instr}
    (h : o.resolve scope depth = some i) (fuel : ℕ) (c : Config σ) :
    w.exec scope (.op o rest) depth fuel c =
      (w.step depth i c).andThen (w.exec scope rest depth fuel) := by
  rw [exec, h]

/-! ## Functions -/

/-- How a function ends. -/
inductive Result (σ : Type) where
  | returned (results : List Word) (o : Outside σ)
  | trapped (o : Outside σ)

/-- The result of a body: what it leaves at its end, or what a branch out of it carries. -/
def Outcome.result? (arity : ℕ) : Outcome σ → Option (Result σ)
  | .next c => some (.returned c.operands.reverse c.outside)
  | .branch 0 c =>
    if arity ≤ c.operands.length then
      some (.returned (c.operands.take arity).reverse c.outside)
    else none
  | .trap o => some (.trapped o)
  | _ => none

/-- What a run has done outside so far. -/
def Outcome.performed : Outcome σ → List (Instr × List Word)
  | .next c | .branch _ c => c.outside.performed
  | .trap o | .timeout o => o.performed
  | .stuck => []

/-- Runs the body `e` of a function. -/
def World.runBody (w : World σ) (f : Function) (space : IndexSpace) (e : Expr) (args : List Word)
    (s : σ) (fuel : ℕ) : Outcome σ :=
  w.exec (f.subject space).scope e 1 fuel
    ⟨args ++ List.replicate f.locals.length 0, [], ⟨s, []⟩⟩

/-- The body of a function ends with a result. -/
def World.BodyEnds (w : World σ) (f : Function) (space : IndexSpace) (e : Expr) (args : List Word)
    (s : σ) (r : Result σ) : Prop :=
  ∃ fuel, (w.runBody f space e args s fuel).result? f.type.results.length = some r

/-- The body of a function, whether it ends or not, does these things first. -/
def World.BodyPerforms (w : World σ) (f : Function) (space : IndexSpace) (e : Expr)
    (args : List Word) (s : σ) (ops : List (Instr × List Word)) : Prop :=
  ∃ fuel, ops <+: (w.runBody f space e args s fuel).performed

end FlatWasm.Machine
