import Mathlib
import FlatWasm.Proofs.Compilation.Defects

/-!
# Where a body is refused

A body is refused with one error, which names a place in the body, the byte at that place, and a cause of one class.  To say
that the place is the right one, the instructions before it are read once more, token by token: `Passes` is a stretch of body
that is all right, and `Offends` is what is wrong with the bytes after it.

* `Subject.exists_offence`: a walk that is refused has come by instructions that pass, up to one that offends.
* `Cause.filter_classes`: whatever other classes a cause has, one of them is a class of bodies.

## Why the place is not a position of the reader

An instruction can be wrong in its immediates, or in its operands, when its bytes have been read already, and then the reader is
past it.  The error has the place where the instruction starts, so a length of what passes is what it has to be compared with.
-/

namespace FlatWasm

open Source

/-! ## Classes -/

/-- The classes of what can be wrong with a body. -/
def ErrorClass.ofBodies : List ErrorClass :=
  [.stackUnderflow, .typeMismatch, .stackMismatch, .malformedControl, .branchDepth, .invalidCall, .invalidIndex,
    .unsupportedOpcode, .malformedImmediate]

/-- A look-up that fails is in no class of bodies. -/
theorem IndexSpace.Error.filter_classes (e : IndexSpace.Error) :
    e.classes.filter (· ∈ ErrorClass.ofBodies) = [] := by
  cases e <;> rfl

/-- **A cause has one class of bodies.** -/
theorem Cause.filter_classes (c : Cause) :
    c.classes.filter (· ∈ ErrorClass.ofBodies) = [c.errorClass] := by
  cases c with
  | callee e | callTable e | index e => exact congrArg (List.cons _) e.filter_classes
  | _ => rfl

/-! ## Instructions that pass, and one that does not -/

variable {scope : Scope}

/-- Instructions that are right, one after the other, with the frames before and after them.  There are none after the end of
the function. -/
inductive Passes (scope : Scope) : Option Typing.State → List UInt8 → Option Typing.State → Prop
  | nil (frames : Option Typing.State) : Passes scope frames [] frames
  | cons {t : Token} {i : Instr} {s : Typing.State} {next last : Option Typing.State}
      {bs rest : List UInt8} (ht : t.Encoded bs) (hi : t.resolve scope s.depth = some i)
      (hs : s.step scope.results i = .ok next) (hrest : Passes scope next rest last) :
      Passes scope (some s) (bs ++ rest) last

/-- What is wrong with the rest of a body: the instruction it starts with, that it has ended, or that it has not. -/
inductive Offends (scope : Scope) : Option Typing.State → List UInt8 → UInt8 → Cause → Prop
  | instr {s : Typing.State} {op : UInt8} {bytes : List UInt8} {cause : Cause}
      (h : s.accept scope op bytes = .error (.error cause)) :
      Offends scope (some s) (op :: bytes) op cause
  | ended (s : Typing.State) : Offends scope (some s) [] Opcode.end (.openFrames s.depth)
  | trailing (op : UInt8) (bytes : List UInt8) :
      Offends scope none (op :: bytes) op (.trailingBytes (op :: bytes).length)

/-- An offence is at the byte that it names, or at the end. -/
theorem Offends.head? {frames : Option Typing.State} {bytes : List UInt8} {op : UInt8} {cause : Cause}
    (h : Offends scope frames bytes op cause) :
    bytes.head? = some op ∨ bytes = [] ∧ op = Opcode.end := by
  cases h with
  | instr | trailing => exact .inl rfl
  | ended => exact .inr ⟨rfl, rfl⟩

/-- The place of an error in what is left of a body. -/
structure Subject.OffendsAt (subject : Subject) (frames : Option Typing.State) (bytes : List UInt8)
    (e : ValidationError) : Prop where
  function : e.function = subject.index
  place : ∃ before rest last, bytes = before ++ rest ∧ Passes subject.scope frames before last ∧
    Offends subject.scope last rest e.opcode e.cause ∧ e.offset = subject.size - rest.length

namespace Subject

variable {subject : Subject} {e : ValidationError}

theorem OffendsAt.here {frames : Option Typing.State} {bytes : List UInt8} {op : UInt8} {cause : Cause}
    (h : Offends subject.scope frames bytes op cause) :
    subject.OffendsAt frames bytes ⟨subject.index, subject.size - bytes.length, op, cause⟩ :=
  ⟨rfl, [], bytes, frames, rfl, .nil _, h, rfl⟩

/-- An instruction that passes is passed over. -/
theorem OffendsAt.cons {frames : Typing.State} {op : UInt8} {bytes : List UInt8} {a : Accepted}
    (ha : frames.accept subject.scope op bytes = .ok a) (h : subject.OffendsAt a.next a.rest e) :
    subject.OffendsAt (some frames) (op :: bytes) e := by
  obtain ⟨t, bs, ht, rfl, hi, hs⟩ := Typing.State.exists_token_of_accept ha
  obtain ⟨before, rest, last, hrest, hpasses, hoffends, hoffset⟩ := h.place
  refine ⟨h.function, op :: bs ++ before, rest, last, ?_, .cons ht hi hs hpasses, hoffends, hoffset⟩
  rw [hrest, List.cons_append, List.cons_append, List.append_assoc]

/-- **A walk that is refused has come to an offence.** -/
theorem exists_offence {frames : Typing.State} {s : Lowering.State} {bytes : List UInt8}
    (h : subject.lower frames s bytes = .error (.error e)) :
    subject.OffendsAt (some frames) bytes e := by
  induction hn : bytes.length using Nat.strong_induction_on generalizing frames s bytes with
  | _ n ih =>
    subst hn
    cases bytes with
    | nil =>
      rw [lower] at h
      cases h
      exact .here (.ended frames)
    | cons op bytes =>
      rw [lower] at h
      split at h
      · next failure hfailure =>
        cases failure with
        | error cause =>
          cases h
          exact .here (.instr hfailure)
        | defect d => cases h
      · next instr next rest ha =>
        refine .cons ha ?_
        dsimp only
        split at h
        · cases h
        next low hlow =>
        cases next with
        | some frames' =>
          exact ih rest.length
            (Nat.lt_succ_of_le (Typing.State.suffix_of_accept ha).length_le) h rfl
        | none =>
          cases rest with
          | nil => cases h
          | cons op rest =>
            cases h
            exact .here (.trailing op rest)

end Subject

/-! ## Functions -/

namespace Function

variable {f g : Function} {space : IndexSpace}

/-- The function after it was to be lowered, with whatever outcome. -/
def after (f : Function) : Except (Failure Error) Function → Function
  | .ok g => g
  | .error _ => f

/-- A function is refused because it has been lowered, or because the walk over its body is refused. -/
theorem lower_eq_refused {e : Error} (h : f.lower space = .error (.error e)) :
    (f.body.isLowered = true ∧ e = .alreadyLowered) ∨
      f.body.isLowered = false ∧ ∃ e', e = .invalid e' ∧
        (f.subject space).lower f.start.frames f.start.low f.body.bytes = .error (.error e') := by
  rw [lower] at h
  cases hbody : f.body with
  | lowered bytes =>
    rw [hbody] at h
    cases h
    exact .inl ⟨rfl, rfl⟩
  | raw body =>
    rw [hbody] at h
    dsimp only at h
    rw [Function.code] at h
    refine .inr ⟨rfl, ?_⟩
    show ∃ e', _ ∧ (f.subject space).lower (.initial f.type.results) f.prologue body = _
    rcases hlower : (f.subject space).lower (.initial f.type.results) f.prologue body with
      (e' | d) | code
    · rw [hlower] at h
      cases h
      exact ⟨e', rfl, rfl⟩
    · rw [hlower] at h
      cases h
    · rw [hlower] at h
      cases h

/-- **A function is lowered, or refused with one error that has a class and a place.**  A function that has been lowered stays as
it is.  A raw one has its body replaced, or stays as it is, and then the error is in one class of bodies, and at the place to
which the instructions before it lead, one by one: where the next one starts, with its first byte, or at the end of the body. -/
theorem lowered_or_refused_in_place {m : Module} {ceiling : UInt32}
    (hm : m.checkShape ceiling = .ok ()) (hspace : m.indexSpace = .ok space) (f : Function) :
    (f.body.isLowered = true → f.lower space = .error (.error .alreadyLowered) ∧
      f.after (f.lower space) = f) ∧
    (f.body.isLowered = false →
      (∃ code, f.lower space = .ok { f with body := .lowered code } ∧
        f.after (f.lower space) = { f with body := .lowered code }) ∨
      ∃ e, f.lower space = .error (.error (.invalid e)) ∧ f.after (f.lower space) = f ∧
        e.function = f.index ∧
        e.cause.classes.filter (· ∈ ErrorClass.ofBodies) = [e.cause.errorClass] ∧
        ∃ before rest last, f.body.bytes = before ++ rest ∧
          Passes (f.subject space).scope (some (.initial f.type.results)) before last ∧
          Offends (f.subject space).scope last rest e.opcode e.cause ∧ e.offset = before.length ∧
          (rest.head? = some e.opcode ∨ rest = [] ∧ e.opcode = Opcode.end)) := by
  have hc : space.Complete := IndexSpace.complete_of_checkShape hm hspace
  constructor
  · intro hlowered
    rw [lower]
    cases hbody : f.body with
    | raw body =>
      rw [hbody] at hlowered
      cases hlowered
    | lowered code => exact ⟨rfl, rfl⟩
  · intro hraw
    rcases (f.noDefect_lower hc).ok_or_refused with ⟨failure, hfailure, -⟩ | ⟨g, hg⟩
    · rcases lower_eq_refused hfailure with ⟨hlowered, -⟩ | ⟨-, e, rfl, hwalk⟩
      · exact absurd (hraw.symm.trans hlowered) (by decide)
      have hplace := Subject.exists_offence hwalk
      obtain ⟨before, rest, last, hbytes, hpasses, hoffends, hoffset⟩ := hplace.place
      rw [hfailure]
      refine .inr ⟨e, rfl, rfl, hplace.function, e.cause.filter_classes, before, rest, last, hbytes,
        hpasses, hoffends, ?_, hoffends.head?⟩
      rw [hoffset, show (f.subject space).size = f.body.bytes.length from rfl, hbytes,
        List.length_append, Nat.add_sub_cancel]
    · obtain ⟨code, -, -, rfl⟩ := lower_eq_ok_iff.mp hg
      rw [hg]
      exact .inl ⟨code.bytes, rfl, rfl⟩

/-- A block with a wrong operand in it. -/
def wrongOperand : Function where
  index := 3
  type := ⟨[], []⟩
  locals := {}
  body := .raw [0x02, 0x40, 0x42, 5, 0x45, 0x1a, 0x0b, 0x0b]

/-- What is wrong with it. -/
def wrongOperandError : ValidationError :=
  ⟨3, 4, 0x45, .operandType .i32 .i64⟩

/-- The error is at the instruction that takes the operand, two instructions into the body. -/
theorem wrongOperand_refused_in_place :
    Module.checkShape {} Limits.maxPages = .ok () ∧ Module.indexSpace {} = .ok {} ∧
    wrongOperand.lower {} = .error (.error (.invalid wrongOperandError)) ∧
    wrongOperandError.cause.classes.filter (· ∈ ErrorClass.ofBodies) = [.typeMismatch] ∧
    ∃ before rest last, wrongOperand.body.bytes = before ++ rest ∧ before.length = 4 ∧
      Passes (wrongOperand.subject {}).scope (some (.initial [])) before last ∧
      rest.head? = some 0x45 := by
  have hm : Module.checkShape {} Limits.maxPages = .ok () := by decide
  have hspace : Module.indexSpace {} = .ok {} := by decide
  have hlower : wrongOperand.lower {} = .error (.error (.invalid wrongOperandError)) := by
    decide +kernel
  refine ⟨hm, hspace, hlower, ?_⟩
  rcases (lowered_or_refused_in_place hm hspace wrongOperand).2 rfl with ⟨code, hcode, -⟩ |
    ⟨e, he, -, -, hclass, before, rest, last, hbytes, hpasses, -, hoffset, hhead⟩
  · cases hlower.symm.trans hcode
  · cases hlower.symm.trans he
    refine ⟨hclass, before, rest, last, hbytes, hoffset.symm, hpasses, ?_⟩
    rcases hhead with hhead | ⟨-, hend⟩
    · exact hhead
    · exact absurd hend (by decide)

end Function

end FlatWasm
