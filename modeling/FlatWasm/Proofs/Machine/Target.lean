import Mathlib
import FlatWasm.Proofs.Flat.Fetch
import FlatWasm.Proofs.Flow.Body
import FlatWasm.Proofs.Machine.Source

/-!
# A machine for flat code

The machine has an offset and one stack.  At the bottom are the parameters, then the declared locals, then the operands
of all frames together.  It fetches an instruction from the bytes at its offset and does it.  It knows no frames.

What is not about control is left to the same `World` that runs source expressions.  The world is asked about source
instructions; the machine looks up which one emitted the code that it runs, and goes on only if the flat instruction is
the one for it.  A marker that selects a store does nothing here.

A machine that returns leaves its whole stack.  So the caller gets the results and nothing else only if a return drops
all that is below them.
-/

namespace FlatWasm.Machine

/-- Code, and which source instruction emitted each of its bytes. -/
structure Program where
  bytes : List UInt8
  source : ℕ → Option Instr

/-- The state of a machine that runs. -/
structure Cpu (σ : Type) where
  pc : ℕ
  /-- The top first. -/
  stack : List Word
  outside : Outside σ

inductive Status (σ : Type) where
  | running (m : Cpu σ)
  | returned (results : List Word) (o : Outside σ)
  | trapped (o : Outside σ)
  | stuck

/-- Moves the top `keep` values down over `drop` values. -/
def moveDown (keep drop : ℕ) (stack : List Word) : Option (List Word) :=
  if keep + drop ≤ stack.length then some (stack.take keep ++ stack.drop (keep + drop)) else none

variable {σ : Type}

namespace Cpu

/-- Goes on at an offset with a stack. -/
def goto (m : Cpu σ) (pc : ℕ) (stack : List Word) : Status σ :=
  .running { m with pc, stack }

/-- Moves values down, and jumps. -/
def branch (m : Cpu σ) (keep drop target : UInt32) (stack : List Word) : Status σ :=
  match moveDown keep.toNat drop.toNat stack with
  | some stack => m.goto target.toNat stack
  | none => .stuck

/-- Moves values down, and returns. -/
def ret (m : Cpu σ) (keep drop : UInt32) (stack : List Word) : Status σ :=
  match moveDown keep.toNat drop.toNat stack with
  | some stack => .returned stack.reverse m.outside
  | none => .stuck

/-- An instruction that the world does; `i` is the source instruction that emitted it. -/
def ask (m : Cpu σ) (w : World σ) (i : Instr) (next : ℕ) : Status σ :=
  match w.apply i m.stack m.outside with
  | some (o, some stack) => .running ⟨next, stack, o⟩
  | some (o, none) => .trapped o
  | none => .stuck

/-- Does an instruction; `source` is the source instruction that emitted it. -/
def execute (m : Cpu σ) (w : World σ) (source : Option Instr) (j : Flat.Instr) : Status σ :=
  let next := m.pc + j.size
  match j with
  | .unreachable => .trapped m.outside
  | .locals count => m.goto next (List.replicate count.toNat 0 ++ m.stack)
  | .jump target => m.goto target.toNat m.stack
  | .jumpIf target =>
    match m.stack with
    | v :: vs => m.goto (if isTrue v then target.toNat else next) vs
    | [] => .stuck
  | .jumpUnless target =>
    match m.stack with
    | v :: vs => m.goto (if isTrue v then next else target.toNat) vs
    | [] => .stuck
  | .br keep drop target => m.branch keep drop target m.stack
  | .brIf keep drop target =>
    match m.stack with
    | v :: vs => if isTrue v then m.branch keep drop target vs else m.goto next vs
    | [] => .stuck
  | .brTable keep entries fallback =>
    match m.stack with
    | v :: vs =>
      let e := entries.getD v.toUInt32.toNat fallback
      if e.target = Flat.returnTarget then m.ret keep e.drop vs
      else m.branch keep e.drop e.target vs
    | [] => .stuck
  | .ret keep drop => m.ret keep drop m.stack
  | .drop =>
    match m.stack with
    | _ :: vs => m.goto next vs
    | [] => .stuck
  | .select =>
    match m.stack with
    | v :: second :: first :: vs => m.goto next ((if isTrue v then first else second) :: vs)
    | _ => .stuck
  -- locals are counted from the bottom
  | .localGet x =>
    match m.stack.reverse[x.toNat]? with
    | some v => m.goto next (v :: m.stack)
    | none => .stuck
  | .localSet x =>
    match m.stack with
    | v :: vs =>
      if x.toNat < vs.length then m.goto next (vs.reverse.set x.toNat v).reverse else .stuck
    | [] => .stuck
  | .localTee x =>
    match m.stack with
    | v :: vs =>
      if x.toNat < vs.length then m.goto next (v :: (vs.reverse.set x.toNat v).reverse)
      else .stuck
    | [] => .stuck
  | .use .. => m.goto next m.stack
  | .const32 bits => m.goto next (bits.toUInt64 :: m.stack)
  | .const64 bits => m.goto next (bits :: m.stack)
  | j =>
    match source with
    | some i => if i.flat? = some j then m.ask w i next else .stuck
    | none => .stuck

end Cpu

/-- One step. -/
def Program.step (p : Program) (w : World σ) (m : Cpu σ) : Status σ :=
  match Flat.fetch p.bytes m.pc with
  | some j => m.execute w (p.source m.pc) j
  | none => .stuck

/-- So many steps, or fewer if the machine stops. -/
def Program.run (p : Program) (w : World σ) : ℕ → Status σ → Status σ
  | n + 1, .running m => p.run w n (p.step w m)
  | _, st => st

/-- How a machine that has stopped has ended. -/
def Status.result? : Status σ → Option (Result σ)
  | .returned results o => some (.returned results o)
  | .trapped o => some (.trapped o)
  | _ => none

/-- What a machine has done outside so far. -/
def Status.performed : Status σ → List (Instr × List Word)
  | .running m => m.outside.performed
  | .returned _ o | .trapped o => o.performed
  | .stuck => []

/-! ## Functions -/

/-- The code that a function has been lowered to. -/
def program (f : Function) (space : IndexSpace) (code : List UInt8) : Program where
  bytes := code
  source n := (f.emitter? space n).map Visit.instr

/-- The machine starts at offset 0, with the arguments on its stack. -/
def World.runCode (w : World σ) (f : Function) (space : IndexSpace) (code : List UInt8)
    (args : List Word) (s : σ) (steps : ℕ) : Status σ :=
  (program f space code).run w steps (.running ⟨0, args.reverse, ⟨s, []⟩⟩)

/-- The code of a function ends with a result. -/
def World.CodeEnds (w : World σ) (f : Function) (space : IndexSpace) (code : List UInt8)
    (args : List Word) (s : σ) (r : Result σ) : Prop :=
  ∃ steps, (w.runCode f space code args s steps).result? = some r

/-- The code of a function, whether it ends or not, does these things first. -/
def World.CodePerforms (w : World σ) (f : Function) (space : IndexSpace) (code : List UInt8)
    (args : List Word) (s : σ) (ops : List (Instr × List Word)) : Prop :=
  ∃ steps, ops <+: (w.runCode f space code args s steps).performed

/-! ## Runs -/

namespace Program

variable (p : Program) (w : World σ)

@[simp] theorem run_zero (st : Status σ) : p.run w 0 st = st := by
  cases st <;> rfl

theorem run_add (k l : ℕ) (st : Status σ) : p.run w (k + l) st = p.run w l (p.run w k st) := by
  induction k generalizing st with
  | zero => rw [Nat.zero_add, run_zero]
  | succ k ih =>
    cases st with
    | running m =>
      rw [Nat.succ_add, run, run, ih]
    | returned _ _ | trapped _ | stuck => cases l <;> simp [run]

/-- A machine that has stopped stays as it is. -/
theorem run_of_stopped {st : Status σ} (h : ∀ m, st ≠ .running m) (n : ℕ) : p.run w n st = st := by
  cases st with
  | running m => exact absurd rfl (h m)
  | _ => cases n <;> rfl

end Program

end FlatWasm.Machine
