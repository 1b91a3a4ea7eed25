import Mathlib
import FlatWasm.Proofs.Typing.Frames

/-!
# How open frames are nested

Frames are opened one inside the other, and the walk over a body changes only the innermost of them.  `State.Change` lists
what an instruction can do: it changes the operands of the innermost frame or ends the code of it that can run, it opens a
frame, goes on to the second branch of an `if`, or closes a frame.

From this follows what the frames have in common at every point of the walk.  The outermost is the function and no other is,
and a frame was opened where code cannot run if and only if a frame around it has been left by a jump (`Nested`).

## Heights

A frame has operands of its own, and the operands below it belong to the frames around it.  So the height at which a frame
starts need not be kept.  Here it is: a height is noted when a frame is opened, from the number of all operands at this point,
and it is kept unchanged until the frame is closed (`noted`).  That the operands below a frame stay in place means that what was
noted long ago is still their number (`noted_heights`).
-/

namespace FlatWasm.Typing

namespace State

variable {s t : State} {i : Instr} {results : List ValueType}

/-- What an instruction can do to the frames that are open. -/
inductive Change (s : State) : Instr → State → Prop where
  | stays {i : Instr} {top : Frame} (hi : i.isStructural = false)
      (htop : top = s.top.markUnreachable ∨ ∃ ts, top = s.top.withOperands ts) :
      Change s i { s with top }
  | opens {i : Instr} {kind : FrameKind} {type : FuncType} (rest : List ValueType)
      (hi : i.opens? = some (kind, type)) :
      Change s i
        { top :=
            { kind
              inputs := type.params
              outputs := type.results
              operands := type.params.reverse
              dead := s.top.unreachable || s.top.dead }
          below := s.top.withOperands rest :: s.below }
  | switches (hkind : s.top.kind = .ifThen) :
      Change s .elseMark { s with top :=
        { s.top with kind := .ifElse, unreachable := false, operands := s.top.inputs.reverse } }
  | closes {parent : Frame} {below : List Frame} (hbelow : s.below = parent :: below) :
      Change s .endMark { top := parent.pushAll s.top.outputs, below }

theorem change_of_step (h : s.step results i = .ok (some t)) : s.Change i t := by
  cases hi : i.isStructural with
  | false =>
    obtain ⟨top, ht, htop⟩ := step_top hi h
    cases ht
    exact .stays hi htop
  | true =>
    rcases Instr.mark_or_opens hi with rfl | rfl | ⟨kind, type, hopens⟩
    · obtain ⟨s', hs, ht⟩ := step_elseMark_eq_ok_iff.mp h
      obtain ⟨hkind, -, rfl⟩ := switch_eq_ok_iff.mp hs
      cases ht
      exact .switches hkind
    · obtain ⟨-, -, ht⟩ := leave_eq_ok_iff.mp h
      cases hbelow : s.below with
      | nil =>
        rw [hbelow] at ht
        cases ht
      | cons parent below =>
        rw [hbelow] at ht
        cases ht
        exact .closes hbelow
    · obtain ⟨rest, ht⟩ := step_opens hopens h
      cases ht
      exact .opens rest hopens

/-- The outermost frame stays, and with it what a branch to it carries. -/
theorem Change.getLast?_labelTypes (h : s.Change i t) :
    (t.frames.map Frame.labelTypes).getLast? = (s.frames.map Frame.labelTypes).getLast? := by
  cases h with
  | stays hi htop =>
    rcases htop with rfl | ⟨ts, rfl⟩ <;> rfl
  | opens rest hi => rfl
  | switches hkind =>
    have hlabel : Frame.labelTypes
        { s.top with kind := .ifElse, unreachable := false, operands := s.top.inputs.reverse } =
          s.top.labelTypes := by
      rw [Frame.labelTypes, Frame.labelTypes, hkind]
    rw [frames, frames, List.map_cons, List.map_cons, hlabel]
  | closes hbelow =>
    rw [frames, frames, hbelow]
    rfl

end State

/-- An instruction opens a block, a loop or an `if`. -/
theorem kind_ne_of_opens {i : Instr} {kind : FrameKind} {type : FuncType}
    (h : i.opens? = some (kind, type)) : kind ≠ .function := by
  cases i <;> cases h <;> decide

/-! ## Nesting -/

/-- Frames from the inside out, as they are opened one inside the other. -/
inductive Nested : List Frame → Prop where
  | function {f : Frame} (hkind : f.kind = .function) (hdead : f.dead = false) : Nested [f]
  | inner {f parent : Frame} {fs : List Frame} (hkind : f.kind ≠ .function)
      (hdead : f.dead = (parent.unreachable || parent.dead)) (h : Nested (parent :: fs)) :
      Nested (f :: parent :: fs)

namespace Nested

variable {f g : Frame} {fs : List Frame} {k : ℕ}

/-- Of the innermost frame it matters only whether it is the function, and where it was opened. -/
theorem replace (h : Nested (f :: fs)) (hkind : g.kind = .function ↔ f.kind = .function)
    (hdead : g.dead = f.dead) : Nested (g :: fs) := by
  cases h with
  | function hk hd => exact .function (hkind.mpr hk) (hdead.trans hd)
  | inner hk hd h => exact .inner (fun hg => hk (hkind.mp hg)) (hdead.trans hd) h

theorem same (h : Nested (f :: fs)) (hs : f.Same g) : Nested (g :: fs) :=
  h.replace (by rw [hs.kind]) hs.dead

/-- **Every instruction keeps frames nested.** -/
theorem change {s t : State} {i : Instr} (h : Nested s.frames) (hc : s.Change i t) :
    Nested t.frames := by
  cases hc with
  | stays hi htop =>
    rcases htop with rfl | ⟨ts, rfl⟩
    · exact h.same s.top.same_markUnreachable
    · exact h.same (s.top.same_withOperands ts)
  | opens rest hi => exact .inner (kind_ne_of_opens hi) rfl (h.same (s.top.same_withOperands rest))
  | switches hkind =>
    have hne : s.top.kind ≠ .function := by
      rw [hkind]
      decide
    exact h.replace (iff_of_false (by rintro ⟨⟩) hne) rfl
  | closes hbelow =>
    rw [State.frames, hbelow] at h
    cases h with
    | inner _ _ h => exact h.same (Frame.same_withOperands _ _)

/-- The outermost frame is the function, and no other is. -/
theorem kind_iff (h : Nested fs) (hf : fs[k]? = some f) :
    f.kind = .function ↔ k + 1 = fs.length := by
  induction h generalizing k with
  | function hk _ =>
    obtain ⟨hlt, rfl⟩ := List.getElem?_eq_some_iff.mp hf
    rw [List.length_singleton] at hlt ⊢
    obtain rfl : k = 0 := Nat.lt_one_iff.mp hlt
    exact iff_of_true hk rfl
  | inner hk _ _ ih =>
    cases k with
    | zero =>
      cases hf
      exact iff_of_false hk (by simp)
    | succ k =>
      rw [ih hf]
      simp

/-- Code of a frame can run only if it could where the frame was opened. -/
theorem dead_iff (h : Nested fs) (hf : fs[k]? = some f) :
    f.dead = true ↔ ∃ g ∈ fs.drop (k + 1), g.unreachable = true := by
  induction h generalizing k f with
  | function _ hd =>
    obtain ⟨hlt, rfl⟩ := List.getElem?_eq_some_iff.mp hf
    obtain rfl : k = 0 := Nat.lt_one_iff.mp hlt
    simp [hd]
  | @inner f' parent fs' _ hd _ ih =>
    cases k with
    | succ k => exact ih hf
    | zero =>
      cases hf
      -- the frame around it is unreachable, or was opened where code cannot run
      have hparent := ih (k := 0) (f := parent) rfl
      rw [hd, Bool.or_eq_true, hparent]
      simp only [List.drop_succ_cons, List.drop_zero, List.mem_cons, exists_eq_or_imp]

theorem dead_eq_false (h : Nested (f :: fs)) (hf : f.dead = false) : ∀ g ∈ fs, g.live = true := by
  induction fs generalizing f with
  | nil => exact List.forall_mem_nil _
  | cons parent fs ih =>
    cases h with
    | inner _ hd h =>
      rw [hf] at hd
      obtain ⟨hu, hdead⟩ := Bool.or_eq_false_iff.mp hd.symm
      refine List.forall_mem_cons.mpr ⟨?_, ih h hdead⟩
      rw [Frame.live, hu, hdead]
      rfl

end Nested

theorem nested_initial (results : List ValueType) : Nested (State.initial results).frames :=
  .function rfl rfl

/-! ## Heights -/

/-- The operands below each frame, for frames from the inside out. -/
def heightsOf : List Frame → List ℕ
  | [] => []
  | _ :: fs => (fs.flatMap Frame.operands).length :: heightsOf fs

theorem le_of_mem_heightsOf {fs : List Frame} :
    ∀ h ∈ heightsOf fs, h ≤ (fs.flatMap Frame.operands).length := by
  induction fs with
  | nil => exact List.forall_mem_nil _
  | cons f fs ih =>
    have hle : (fs.flatMap Frame.operands).length ≤ ((f :: fs).flatMap Frame.operands).length := by
      rw [List.flatMap_cons, List.length_append]
      exact Nat.le_add_left _ _
    exact List.forall_mem_cons.mpr ⟨hle, fun h hh => (ih h hh).trans hle⟩

/-- From the inside out, frames start lower and lower. -/
theorem pairwise_heightsOf (fs : List Frame) : (heightsOf fs).Pairwise (· ≥ ·) := by
  induction fs with
  | nil => exact .nil
  | cons f fs ih => exact .cons le_of_mem_heightsOf ih

/-- The heights of the open frames after an instruction.  When a frame is opened, the number of operands is noted without those
that the frame takes, and what was noted is kept until the frame is closed. -/
def noted (i : Instr) (after : State) (heights : List ℕ) : List ℕ :=
  match i with
  | .block _ | .loop _ | .ifThen _ => (after.operands.length - after.top.inputs.length) :: heights
  | .endMark => heights.tail
  | _ => heights

theorem noted_of_opens {i : Instr} {kind : FrameKind} {type : FuncType}
    (h : i.opens? = some (kind, type)) (after : State) (heights : List ℕ) :
    noted i after heights = (after.operands.length - after.top.inputs.length) :: heights := by
  cases i <;> cases h <;> rfl

/-- **What was noted for a frame is the number of operands below it, as long as it is open.** -/
theorem noted_heights {s t : State} {i : Instr} (hc : s.Change i t) :
    noted i t (heightsOf s.frames) = heightsOf t.frames := by
  cases hc with
  | stays hi htop => cases i <;> first | rfl | cases hi
  | @opens _ kind type rest hi =>
    rw [noted_of_opens hi]
    have hlen : ∀ below : List ValueType,
        (type.params.reverse ++ below).length - type.params.length = below.length := by
      intro below
      rw [List.length_append, List.length_reverse, Nat.add_sub_cancel_left]
    exact congrArg (· :: heightsOf s.frames) (hlen _)
  | switches hkind => rfl
  | closes hbelow =>
    show (heightsOf (s.top :: s.below)).tail = _
    rw [hbelow]
    rfl

end FlatWasm.Typing
