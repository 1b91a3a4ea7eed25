import Mathlib
import FlatWasm.Proofs.Typing.Frames

/-!
# Heights

Where code can run, every instruction takes and leaves a number of operands that is known, and the frames say how many
there are.  Flat code is about numbers of operands and not about their types; this module has what it needs of the
typing: for each kind of instruction how many operands it finds in the innermost frame, and how many there are after it.
-/

namespace FlatWasm

/-- How many operands an instruction takes and leaves, for those that only touch operands. -/
def Instr.effect? : Instr → Option (ℕ × ℕ)
  | .drop => some (1, 0)
  | .select => some (3, 1)
  | i => i.type?.map fun type => (type.params.length, type.results.length)

theorem Instr.effect?_of_type {i : Instr} {type : FuncType} (h : i.type? = some type) :
    i.effect? = some (type.params.length, type.results.length) := by
  cases i <;> cases h <;> rfl

/-- The label that an instruction leaves for, where `depth` frames are open. -/
def Instr.leaves? (depth : ℕ) : Instr → Option ℕ
  | .br label => some label
  | .ret => some (depth - 1)
  | _ => none

namespace Typing.State

variable {s : State} {results : List ValueType} {i : Instr} {next : Option State}

theorem step_effect {a b : ℕ} (hu : s.top.unreachable = false) (he : i.effect? = some (a, b))
    (h : s.step results i = .ok next) :
    ∃ ops, next = some { s with top := s.top.withOperands ops } ∧ a ≤ s.top.operands.length ∧
      ops.length = s.top.operands.length - a + b := by
  cases ht : i.type? with
  | some type =>
    rw [Instr.effect?_of_type ht] at he
    cases he
    rw [step_of_type ht] at h
    obtain ⟨s', h', rfl⟩ := Except.map_eq_ok_iff.mp h
    obtain ⟨top, ha, rfl⟩ := onTop_eq_ok_iff.mp h'
    obtain ⟨taken, rest, htakes, rfl⟩ := Frame.apply_eq_ok_iff.mp ha
    have hlen := htakes.length_operands hu
    rw [List.length_reverse] at hlen
    refine ⟨_, rfl, by omega, ?_⟩
    rw [List.length_append, List.length_reverse]
    omega
  | none =>
    cases i with
    | drop =>
      cases he
      obtain ⟨s', h', rfl⟩ := Except.map_eq_ok_iff.mp h
      obtain ⟨t, rest, hy, rfl⟩ := drop_eq_ok_iff.mp h'
      have hlen := congrArg List.length (hy.eq_append hu)
      rw [List.length_append, List.length_singleton] at hlen
      exact ⟨rest, rfl, by omega, by omega⟩
    | select =>
      cases he
      obtain ⟨s', h', rfl⟩ := Except.map_eq_ok_iff.mp h
      obtain ⟨cond, second, first, rest, hy, -, -, rfl⟩ := select_eq_ok_iff.mp h'
      have hlen := congrArg List.length (hy.eq_append hu)
      simp only [List.length_append, List.length_cons, List.length_nil] at hlen
      refine ⟨_, rfl, by omega, ?_⟩
      rw [List.length_cons]
      omega
    | unreachable | block _ | loop _ | ifThen _ | elseMark | endMark | br _ | brIf _ | brTable _ _
    | ret => cases he
    | _ => cases ht

/-- A branch or a return finds in its frame the values that it carries. -/
theorem step_leaves {label : ℕ} (hu : s.top.unreachable = false)
    (hres : s.labelTypes s.below.length = results) (hl : i.leaves? s.depth = some label)
    (h : s.step results i = .ok next) :
    next = some { s with top := s.top.markUnreachable } ∧
      (s.labelTypes label).length ≤ s.top.operands.length := by
  have hjump : ∀ ts, some <$> s.jump ts = .ok next →
      next = some { s with top := s.top.markUnreachable } ∧ ts.length ≤ s.top.operands.length := by
    intro ts h
    obtain ⟨s', h', rfl⟩ := Except.map_eq_ok_iff.mp h
    obtain ⟨⟨taken, rest, ht⟩, rfl⟩ := jump_eq_ok_iff.mp h'
    have hlen := ht.length_operands hu
    rw [List.length_reverse] at hlen
    exact ⟨rfl, by omega⟩
  cases i with
  | br d =>
    cases hl
    exact hjump _ h
  | ret =>
    cases hl
    rw [show s.depth - 1 = s.below.length from rfl, hres]
    exact hjump _ h
  | _ => cases hl

theorem step_brIf {label : ℕ} (hu : s.top.unreachable = false)
    (h : s.step results (.brIf label) = .ok next) :
    ∃ ops, next = some { s with top := s.top.withOperands ops } ∧
      (s.labelTypes label).length ≤ ops.length ∧ s.top.operands.length = ops.length + 1 := by
  obtain ⟨s', h', rfl⟩ := Except.map_eq_ok_iff.mp h
  obtain ⟨taken, rest, ht, rfl⟩ := jumpIf_eq_ok_iff.mp h'
  have hlen := ht.length_operands hu
  rw [List.length_cons, List.length_reverse] at hlen
  refine ⟨_, rfl, ?_, ?_⟩
  · rw [List.length_append, List.length_reverse]
    omega
  · rw [List.length_append, List.length_reverse]
    omega

theorem length_of_checkTargets {arity : ℕ} {tss : List (List ValueType)} {f g : Frame}
    (hf : f.unreachable = false) (h : checkTargets arity tss f = .ok g) :
    (∀ ts ∈ tss, ts.length = arity) ∧ g.operands.length = f.operands.length := by
  induction tss generalizing f with
  | nil =>
    cases h
    exact ⟨by simp, rfl⟩
  | cons ts tss ih =>
    obtain ⟨hlen, taken, rest, ht, h'⟩ := checkTargets_cons_eq_ok_iff.mp h
    obtain ⟨htss, hg⟩ := ih (by exact hf) h'
    refine ⟨List.forall_mem_cons.mpr ⟨hlen, htss⟩, ?_⟩
    rw [hg, Frame.withOperands_operands, ht.1.eq_append hf]

theorem step_brTable {labels : List ℕ} {fallback : ℕ} (hu : s.top.unreachable = false)
    (h : s.step results (.brTable labels fallback) = .ok next) :
    next = some { s with top := s.top.markUnreachable } ∧
      (∀ l ∈ labels, (s.labelTypes l).length = (s.labelTypes fallback).length) ∧
      (s.labelTypes fallback).length + 1 ≤ s.top.operands.length := by
  obtain ⟨s', h', rfl⟩ := Except.map_eq_ok_iff.mp h
  obtain ⟨cond, mid, g, hc, hg, ⟨taken, rest, ht⟩, rfl⟩ := jumpTable_eq_ok_iff.mp h'
  obtain ⟨harity, hlen⟩ := length_of_checkTargets (by exact hu) hg
  have hgu : g.unreachable = false := by
    rw [withOperands_of_checkTargets hg]
    exact hu
  have h₁ := hc.length_operands hu
  have h₂ := ht.length_operands hgu
  rw [List.length_singleton] at h₁
  rw [List.length_reverse] at h₂
  rw [Frame.withOperands_operands] at hlen
  refine ⟨rfl, fun l hl => harity _ ?_, by omega⟩
  exact List.mem_append_left _ (List.mem_map_of_mem hl)

/-- An instruction that opens a frame finds what the frame takes, and an `if` its condition. -/
theorem step_opens_length {kind : FrameKind} {type : FuncType} (hu : s.top.unreachable = false)
    (hi : i.opens? = some (kind, type)) (h : s.step results i = .ok next) :
    ∃ rest, next = some
        { top :=
            { kind
              inputs := type.params
              outputs := type.results
              operands := type.params.reverse
              dead := s.top.dead }
          below := s.top.withOperands rest :: s.below } ∧
      s.top.operands.length =
        rest.length + type.params.length + if kind = .ifThen then 1 else 0 := by
  have hdead : (s.top.unreachable || s.top.dead) = s.top.dead := by rw [hu, Bool.false_or]
  cases i with
  | block type =>
    cases hi
    obtain ⟨s', h', rfl⟩ := step_block_eq_ok_iff.mp h
    obtain ⟨taken, rest, ht, rfl⟩ := enter_eq_ok_iff.mp h'
    have hlen := ht.length_operands hu
    rw [List.length_reverse] at hlen
    exact ⟨rest, by rw [hdead], by rw [if_neg (by simp)]; omega⟩
  | loop type =>
    cases hi
    obtain ⟨s', h', rfl⟩ := step_loop_eq_ok_iff.mp h
    obtain ⟨taken, rest, ht, rfl⟩ := enter_eq_ok_iff.mp h'
    have hlen := ht.length_operands hu
    rw [List.length_reverse] at hlen
    exact ⟨rest, by rw [hdead], by rw [if_neg (by simp)]; omega⟩
  | ifThen type =>
    cases hi
    obtain ⟨cond, mid, s', hc, h', rfl⟩ := step_ifThen_eq_ok_iff.mp h
    obtain ⟨taken, rest, ht, rfl⟩ := enter_eq_ok_iff.mp h'
    have h₁ := hc.length_operands hu
    have h₂ := ht.length_operands (by exact hu)
    rw [List.length_singleton] at h₁
    rw [List.length_reverse, Frame.withOperands_operands] at h₂
    exact ⟨rest, by rw [← hdead]; rfl, by rw [if_pos rfl]; omega⟩
  | _ => cases hi

end Typing.State

end FlatWasm
