import Mathlib
import FlatWasm.Proofs.Readers
import FlatWasm.Typing.Step

/-!
# What popping does to a frame

`Frame.popDown` goes operand by operand, and what it answers depends on whether the code of the frame can still run.
Here this is said once for all operands together.  A frame whose code cannot run has, below its own operands, as many
operands of type `bottom` as are asked for; `Yields` says which operands come off the top if so many are added, and
`popDown_eq_ok_iff` says that popping is `Yields` and a comparison of types.

Nothing that follows looks at single pops again: lengths, for the code, and types, for the type system, are both read
off `Yields`.
-/

namespace FlatWasm

theorem Except.map_eq_ok_iff {ε α β : Type} {x : Except ε α} {f : α → β} {b : β} :
    f <$> x = .ok b ↔ ∃ a, x = .ok a ∧ f a = b := by
  cases x with
  | error e =>
    constructor
    · intro h
      cases h
    · rintro ⟨a, h, -⟩
      cases h
  | ok a =>
    constructor
    · intro h
      cases h
      exact ⟨a, rfl, rfl⟩
    · rintro ⟨a', h, rfl⟩
      cases h
      rfl

namespace Typing.Frame

/-- The frame with other operands. -/
def withOperands (f : Frame) (ts : List ValueType) : Frame :=
  { f with operands := ts }

@[simp] theorem withOperands_operands (f : Frame) (ts : List ValueType) :
    (f.withOperands ts).operands = ts := rfl

@[simp] theorem withOperands_unreachable (f : Frame) (ts : List ValueType) :
    (f.withOperands ts).unreachable = f.unreachable := rfl

@[simp] theorem withOperands_withOperands (f : Frame) (ts us : List ValueType) :
    (f.withOperands ts).withOperands us = f.withOperands us := rfl

@[simp] theorem withOperands_self (f : Frame) : f.withOperands f.operands = f := rfl

theorem pushAll_reverse (f : Frame) (rest popped : List ValueType) :
    (f.withOperands rest).pushAll popped.reverse = f.withOperands (popped ++ rest) := by
  rw [pushAll, List.reverse_reverse]
  rfl

/-- The operands `taken`, the top one first, come off a frame and leave `rest`.  Where code cannot run, operands that
are not there are of type `bottom`. -/
def Yields (f : Frame) (taken rest : List ValueType) : Prop :=
  ∃ pad, f.operands ++ List.replicate pad .bottom = taken ++ rest ∧
    (0 < pad → f.unreachable = true ∧ rest = [])

/-- Operands that match `ts`, which are listed from the top down, come off a frame. -/
def Takes (f : Frame) (ts taken rest : List ValueType) : Prop :=
  f.Yields taken rest ∧ List.Forall₂ (fun expected actual => matchesType expected actual = true) ts taken

theorem yields_nil {f : Frame} {rest : List ValueType} : f.Yields [] rest ↔ rest = f.operands := by
  constructor
  · rintro ⟨pad, h, hpad⟩
    cases pad with
    | zero => simpa using h.symm
    | succ n =>
      rw [(hpad (Nat.succ_pos n)).2] at h
      simp [List.replicate_succ] at h
  · rintro rfl
    exact ⟨0, by simp, by simp⟩

/-- Taking operands is taking the top one and then the others. -/
theorem yields_cons {f : Frame} {t : ValueType} {ts rest : List ValueType} :
    f.Yields (t :: ts) rest ↔
      ∃ mid, f.Yields [t] mid ∧ (f.withOperands mid).Yields ts rest := by
  constructor
  · rintro ⟨pad, h, hpad⟩
    cases hops : f.operands with
    | cons u us =>
      -- the top operand is there
      rw [hops, List.cons_append, List.cons_append, List.cons.injEq] at h
      obtain ⟨rfl, h⟩ := h
      exact ⟨us, ⟨0, by simp [hops], by simp⟩, pad, h, hpad⟩
    | nil =>
      -- it is not, so all operands are made up
      rw [hops, List.nil_append] at h
      cases pad with
      | zero => simp at h
      | succ n =>
        obtain ⟨hu, rfl⟩ := hpad (Nat.succ_pos n)
        rw [List.replicate_succ, List.cons_append, List.cons.injEq] at h
        obtain ⟨rfl, h⟩ := h
        exact ⟨[], ⟨1, by simp [hops], fun _ => ⟨hu, rfl⟩⟩, n, by simpa using h, fun _ => ⟨hu, rfl⟩⟩
  · rintro ⟨mid, ⟨pad, h, hpad⟩, n, h', hn⟩
    refine ⟨pad + n, ?_, ?_⟩
    · simp only [withOperands_operands] at h'
      rw [← List.replicate_append_replicate, ← List.append_assoc, h, List.cons_append,
        List.nil_append, List.cons_append, h', List.cons_append]
    · intro hpos
      rcases Nat.eq_zero_or_pos n with rfl | hn0
      · have hmid := (hpad (by omega)).2
        refine ⟨(hpad (by omega)).1, ?_⟩
        simp only [withOperands_operands, hmid] at h'
        have hnil := congrArg List.length h'
        simp only [List.replicate_zero, List.append_nil, List.length_nil, List.length_append] at hnil
        exact List.eq_nil_of_length_eq_zero (by omega)
      · exact hn hn0

theorem pop_eq_ok_iff {f g : Frame} {t : ValueType} :
    f.pop = .ok (t, g) ↔ g = f.withOperands g.operands ∧ f.Yields [t] g.operands := by
  rw [pop]
  cases hops : f.operands with
  | cons u us =>
    constructor
    · intro h
      cases h
      exact ⟨rfl, 0, by simp [hops], by simp⟩
    · rintro ⟨hg, pad, h, hpad⟩
      rw [hops, List.cons_append, List.singleton_append, List.cons.injEq] at h
      obtain ⟨rfl, h⟩ := h
      -- nothing is made up, since an operand is there
      have h0 : pad = 0 ∨ us = [] ∧ g.operands = [] := by
        rcases Nat.eq_zero_or_pos pad with h0 | hpos
        · exact .inl h0
        · rw [(hpad hpos).2] at h
          simp at h
          omega
      rcases h0 with rfl | ⟨rfl, hnil⟩
      · rw [hg, ← show us = g.operands by simpa using h]
        rfl
      · rw [hg, hnil]
        rfl
  | nil =>
    dsimp only
    split
    · next hu =>
      constructor
      · intro h
        cases h
        exact ⟨rfl, 1, by simp [hops], fun _ => ⟨hu, hops⟩⟩
      · rintro ⟨hg, pad, h, hpad⟩
        cases pad with
        | zero => simp [hops] at h
        | succ n =>
          rw [(hpad (Nat.succ_pos n)).2] at h hg
          rw [hops, List.replicate_succ] at h
          simp only [List.nil_append, List.append_nil, List.cons.injEq] at h
          rw [← h.1, hg, ← hops]
          rfl
    · next hu =>
      constructor
      · intro h
        cases h
      · rintro ⟨-, pad, h, hpad⟩
        rcases Nat.eq_zero_or_pos pad with rfl | hpos
        · simp [hops] at h
        · exact absurd (hpad hpos).1 hu

theorem popExpect_eq_ok_iff {f g : Frame} {expected t : ValueType} :
    f.popExpect expected = .ok (t, g) ↔
      f.pop = .ok (t, g) ∧ matchesType expected t = true := by
  rw [popExpect, Except.bind_eq_ok_iff]
  constructor
  · rintro ⟨⟨u, f'⟩, h, h'⟩
    dsimp only at h'
    split at h'
    · next hm =>
      cases h'
      exact ⟨h, hm⟩
    · cases h'
  · rintro ⟨h, hm⟩
    exact ⟨(t, g), h, by simp only [hm]; rfl⟩

theorem popExpect_eq_ok_iff_takes {f g : Frame} {expected t : ValueType} :
    f.popExpect expected = .ok (t, g) ↔
      g = f.withOperands g.operands ∧ f.Takes [expected] [t] g.operands := by
  rw [popExpect_eq_ok_iff, pop_eq_ok_iff, Takes, List.forall₂_cons, and_assoc]
  simp

theorem takes_cons {f : Frame} {e : ValueType} {ts taken rest : List ValueType} :
    f.Takes (e :: ts) taken rest ↔ ∃ a as mid, taken = a :: as ∧ f.Takes [e] [a] mid ∧
      (f.withOperands mid).Takes ts as rest := by
  constructor
  · rintro ⟨hy, hm⟩
    cases hm with
    | @cons _ a _ as hm hms =>
      obtain ⟨mid, hy₁, hys⟩ := yields_cons.mp hy
      exact ⟨a, as, mid, rfl, ⟨hy₁, .cons hm .nil⟩, hys, hms⟩
  · rintro ⟨a, as, mid, rfl, ⟨hy, hm⟩, hys, hms⟩
    cases hm with
    | cons hm _ => exact ⟨yields_cons.mpr ⟨mid, hy, hys⟩, .cons hm hms⟩

/-- **Popping takes operands that match.** -/
theorem popDown_eq_ok_iff {f g : Frame} {ts taken : List ValueType} :
    f.popDown ts = .ok (taken, g) ↔
      g = f.withOperands g.operands ∧ f.Takes ts taken g.operands := by
  induction ts generalizing f taken with
  | nil =>
    rw [popDown]
    constructor
    · intro h
      cases h
      exact ⟨rfl, yields_nil.mpr rfl, .nil⟩
    · rintro ⟨hg, hy, hm⟩
      cases hm
      rw [hg, yields_nil.mp hy]
      rfl
  | cons t ts ih =>
    rw [popDown, Except.bind_eq_ok_iff, takes_cons]
    constructor
    · rintro ⟨⟨a, f'⟩, ha, h⟩
      obtain ⟨⟨as, g'⟩, has, h'⟩ := Except.bind_eq_ok_iff.mp h
      cases h'
      obtain ⟨hf, ht⟩ := popExpect_eq_ok_iff_takes.mp ha
      obtain ⟨hg, hts⟩ := ih.mp has
      rw [hf] at hg hts
      exact ⟨hg, a, as, _, rfl, ht, hts⟩
    · rintro ⟨hg, a, as, mid, rfl, ht, hts⟩
      have hrest : (f.withOperands mid).popDown ts = .ok (as, g) := ih.mpr ⟨hg, hts⟩
      refine ⟨(a, f.withOperands mid), popExpect_eq_ok_iff_takes.mpr ⟨rfl, ht⟩, ?_⟩
      dsimp only
      rw [hrest]
      rfl

theorem popAll_eq_ok_iff {f g : Frame} {ts : List ValueType} :
    f.popAll ts = .ok g ↔
      g = f.withOperands g.operands ∧ ∃ taken, f.Takes ts.reverse taken g.operands := by
  rw [popAll, Except.bind_eq_ok_iff]
  constructor
  · rintro ⟨⟨taken, g'⟩, h, h'⟩
    cases h'
    obtain ⟨hg, ht⟩ := popDown_eq_ok_iff.mp h
    exact ⟨hg, taken, ht⟩
  · rintro ⟨hg, taken, ht⟩
    exact ⟨(taken, g), popDown_eq_ok_iff.mpr ⟨hg, ht⟩, rfl⟩

theorem apply_eq_ok_iff {f g : Frame} {type : FuncType} :
    f.apply type = .ok g ↔ ∃ taken rest, f.Takes type.params.reverse taken rest ∧
      g = f.withOperands (type.results.reverse ++ rest) := by
  rw [apply, Except.bind_eq_ok_iff]
  constructor
  · rintro ⟨f', h, h'⟩
    cases h'
    obtain ⟨hf, taken, ht⟩ := popAll_eq_ok_iff.mp h
    refine ⟨taken, _, ht, ?_⟩
    rw [hf]
    rfl
  · rintro ⟨taken, rest, ht, rfl⟩
    exact ⟨f.withOperands rest, popAll_eq_ok_iff.mpr ⟨rfl, taken, ht⟩, rfl⟩

/-- A frame closes if it leaves its outputs and nothing else. -/
theorem close_eq_ok_iff {f : Frame} :
    f.close = .ok () ↔ ∃ taken, f.Takes f.outputs.reverse taken [] := by
  rw [close, Except.bind_eq_ok_iff]
  constructor
  · rintro ⟨g, h, h'⟩
    obtain ⟨-, taken, ht⟩ := popAll_eq_ok_iff.mp h
    split at h'
    · next he =>
      rw [List.isEmpty_iff.mp he] at ht
      exact ⟨taken, ht⟩
    · cases h'
  · rintro ⟨taken, ht⟩
    exact ⟨f.withOperands [], popAll_eq_ok_iff.mpr ⟨rfl, taken, ht⟩, rfl⟩

theorem live_eq (f : Frame) : f.live = !(f.unreachable || f.dead) :=
  (Bool.not_or _ _).symm

/-- Where code can run, what comes off a frame is there. -/
theorem Yields.eq_append {f : Frame} {taken rest : List ValueType} (h : f.Yields taken rest)
    (hf : f.unreachable = false) : f.operands = taken ++ rest := by
  obtain ⟨pad, h, hpad⟩ := h
  rcases Nat.eq_zero_or_pos pad with rfl | hpos
  · simpa using h
  · rw [(hpad hpos).1] at hf
    cases hf

theorem Takes.length_operands {f : Frame} {ts taken rest : List ValueType}
    (h : f.Takes ts taken rest) (hf : f.unreachable = false) :
    f.operands.length = ts.length + rest.length := by
  rw [h.1.eq_append hf, List.length_append, h.2.length_eq]

end Typing.Frame

/-- Whether an instruction opens, closes or divides a frame. -/
def Instr.isStructural : Instr → Bool
  | .block _ | .loop _ | .ifThen _ | .elseMark | .endMark => true
  | _ => false

/-- The frame that an instruction opens. -/
def Instr.opens? : Instr → Option (Typing.FrameKind × FuncType)
  | .block type => some (.block, type)
  | .loop type => some (.loop, type)
  | .ifThen type => some (.ifThen, type)
  | _ => none

/-- A structural instruction divides, ends or opens a frame. -/
theorem Instr.mark_or_opens {i : Instr} (h : i.isStructural = true) :
    i = .elseMark ∨ i = .endMark ∨ ∃ kind type, i.opens? = some (kind, type) := by
  cases i with
  | elseMark => exact .inl rfl
  | endMark => exact .inr (.inl rfl)
  | block type | loop type | ifThen type => exact .inr (.inr ⟨_, type, rfl⟩)
  | _ => cases h

/-- What an instruction takes, the top first, before it opens a frame. -/
def Instr.condition : Instr → List ValueType
  | .ifThen _ => [.i32]
  | _ => []

namespace Typing.Frame

/-- `g` is the frame `f` at a later point of its code.  Code that cannot run does not run later. -/
structure Same (f g : Frame) : Prop where
  kind : g.kind = f.kind
  inputs : g.inputs = f.inputs
  outputs : g.outputs = f.outputs
  dead : g.dead = f.dead
  unreachable : f.unreachable = true → g.unreachable = true

theorem Same.refl (f : Frame) : f.Same f :=
  ⟨rfl, rfl, rfl, rfl, id⟩

theorem Same.trans {f g h : Frame} (hg : f.Same g) (hh : g.Same h) : f.Same h :=
  ⟨hh.kind.trans hg.kind, hh.inputs.trans hg.inputs, hh.outputs.trans hg.outputs,
    hh.dead.trans hg.dead, fun hf => hh.unreachable (hg.unreachable hf)⟩

theorem Same.labelTypes {f g : Frame} (h : f.Same g) : g.labelTypes = f.labelTypes := by
  rw [Frame.labelTypes, Frame.labelTypes, h.kind, h.inputs, h.outputs]

theorem same_withOperands (f : Frame) (ts : List ValueType) : f.Same (f.withOperands ts) :=
  ⟨rfl, rfl, rfl, rfl, id⟩

theorem same_markUnreachable (f : Frame) : f.Same f.markUnreachable :=
  ⟨rfl, rfl, rfl, rfl, fun _ => rfl⟩

end Typing.Frame

namespace Typing.State

variable {s : State} {results : List ValueType}

theorem onTop_eq_ok_iff {f : Frame → Except Cause Frame} {s' : State} :
    s.onTop f = .ok s' ↔ ∃ top, f s.top = .ok top ∧ s' = { s with top } := by
  rw [onTop, Except.bind_eq_ok_iff]
  constructor
  · rintro ⟨top, h, h'⟩
    cases h'
    exact ⟨top, h, rfl⟩
  · rintro ⟨top, h, rfl⟩
    exact ⟨top, h, rfl⟩

theorem enter_eq_ok_iff {kind : FrameKind} {type : FuncType} {s' : State} :
    s.enter kind type = .ok s' ↔ ∃ taken rest, s.top.Takes type.params.reverse taken rest ∧
      s' = { top :=
               { kind
                 inputs := type.params
                 outputs := type.results
                 operands := type.params.reverse
                 dead := s.top.unreachable || s.top.dead }
             below := s.top.withOperands rest :: s.below } := by
  rw [enter, Except.bind_eq_ok_iff]
  constructor
  · rintro ⟨parent, h, h'⟩
    obtain ⟨hp, taken, ht⟩ := Frame.popAll_eq_ok_iff.mp h
    rw [hp] at h'
    cases h'
    exact ⟨taken, _, ht, rfl⟩
  · rintro ⟨taken, rest, ht, rfl⟩
    exact ⟨s.top.withOperands rest, Frame.popAll_eq_ok_iff.mpr ⟨rfl, taken, ht⟩, rfl⟩

theorem switch_eq_ok_iff {s' : State} :
    s.switch = .ok s' ↔ s.top.kind = .ifThen ∧ (∃ taken, s.top.Takes s.top.outputs.reverse taken []) ∧
      s' = { s with top :=
        { s.top with kind := .ifElse, unreachable := false, operands := s.top.inputs.reverse } } := by
  rw [switch]
  by_cases hk : s.top.kind = .ifThen
  · simp only [hk, ne_eq, not_true_eq_false, if_false, true_and]
    rw [← Frame.close_eq_ok_iff]
    cases hc : s.top.close with
    | error e =>
      constructor
      · intro h
        cases h
      · rintro ⟨h, -⟩
        cases h
    | ok u =>
      constructor
      · intro h
        cases h
        exact ⟨rfl, rfl⟩
      · rintro ⟨-, rfl⟩
        rfl
  · simp only [ne_eq, hk, not_false_eq_true, if_true, false_and, iff_false]
    intro h
    cases h

theorem leave_eq_ok_iff {next : Option State} :
    s.leave = .ok next ↔ (s.top.kind = .ifThen → s.top.inputs = s.top.outputs) ∧
      (∃ taken, s.top.Takes s.top.outputs.reverse taken []) ∧
      next = match s.below with
        | [] => none
        | parent :: below => some { top := parent.pushAll s.top.outputs, below } := by
  rw [leave]
  by_cases hk : s.top.kind = .ifThen ∧ s.top.inputs ≠ s.top.outputs
  · rw [if_pos hk]
    constructor
    · intro h
      cases h
    · rintro ⟨h, -⟩
      exact absurd (h hk.1) hk.2
  · rw [if_neg hk, ← Frame.close_eq_ok_iff]
    have hk' : s.top.kind = .ifThen → s.top.inputs = s.top.outputs := by
      intro h
      by_contra hne
      exact hk ⟨h, hne⟩
    cases hc : s.top.close with
    | error e =>
      constructor
      · intro h
        cases h
      · rintro ⟨-, h, -⟩
        cases h
    | ok u =>
      cases hb : s.below with
      | nil =>
        constructor
        · intro h
          cases h
          exact ⟨hk', rfl, rfl⟩
        · rintro ⟨-, -, rfl⟩
          rfl
      | cons parent below =>
        constructor
        · intro h
          cases h
          exact ⟨hk', rfl, rfl⟩
        · rintro ⟨-, -, rfl⟩
          rfl

theorem jump_eq_ok_iff {ts : List ValueType} {s' : State} :
    s.jump ts = .ok s' ↔ (∃ taken rest, s.top.Takes ts.reverse taken rest) ∧
      s' = { s with top := s.top.markUnreachable } := by
  rw [jump, onTop_eq_ok_iff]
  constructor
  · rintro ⟨top, h, rfl⟩
    obtain ⟨g, hg, h'⟩ := Except.bind_eq_ok_iff.mp h
    cases h'
    obtain ⟨hf, taken, ht⟩ := Frame.popAll_eq_ok_iff.mp hg
    refine ⟨⟨taken, _, ht⟩, ?_⟩
    rw [hf]
    rfl
  · rintro ⟨⟨taken, rest, ht⟩, rfl⟩
    have hp : s.top.popAll ts = .ok (s.top.withOperands rest) :=
      Frame.popAll_eq_ok_iff.mpr ⟨rfl, taken, ht⟩
    exact ⟨_, Except.bind_eq_ok_iff.mpr ⟨_, hp, rfl⟩, rfl⟩

theorem jumpIf_eq_ok_iff {ts : List ValueType} {s' : State} :
    s.jumpIf ts = .ok s' ↔ ∃ taken rest, s.top.Takes (.i32 :: ts.reverse) taken rest ∧
      s' = { s with top := s.top.withOperands (ts.reverse ++ rest) } := by
  rw [jumpIf, onTop_eq_ok_iff]
  constructor
  · rintro ⟨top, h, rfl⟩
    obtain ⟨⟨cond, g⟩, hg, h'⟩ := Except.bind_eq_ok_iff.mp h
    obtain ⟨hf, hc⟩ := Frame.popExpect_eq_ok_iff_takes.mp hg
    obtain ⟨taken, rest, ht, rfl⟩ := Frame.apply_eq_ok_iff.mp h'
    dsimp only at ht
    rw [hf] at ht
    refine ⟨cond :: taken, rest, Frame.takes_cons.mpr ⟨cond, taken, _, rfl, hc, ht⟩, ?_⟩
    dsimp only
    rw [hf]
    rfl
  · rintro ⟨taken, rest, ht, rfl⟩
    obtain ⟨cond, as, mid, rfl, hc, has⟩ := Frame.takes_cons.mp ht
    refine ⟨_, Except.bind_eq_ok_iff.mpr ⟨(cond, s.top.withOperands mid),
      Frame.popExpect_eq_ok_iff_takes.mpr ⟨rfl, hc⟩,
      Frame.apply_eq_ok_iff.mpr ⟨as, rest, has, rfl⟩⟩, rfl⟩

theorem checkTargets_cons_eq_ok_iff {arity : ℕ} {ts : List ValueType}
    {tss : List (List ValueType)} {f g : Frame} :
    checkTargets arity (ts :: tss) f = .ok g ↔ ts.length = arity ∧
      ∃ taken rest, f.Takes ts.reverse taken rest ∧
        checkTargets arity tss (f.withOperands (taken ++ rest)) = .ok g := by
  rw [checkTargets, List.foldlM_cons, Except.bind_eq_ok_iff]
  by_cases hlen : ts.length = arity
  · simp only [hlen, ne_eq, not_true_eq_false, if_false, true_and]
    constructor
    · rintro ⟨f', h, h'⟩
      obtain ⟨⟨popped, f₁⟩, hp, hq⟩ := Except.bind_eq_ok_iff.mp h
      cases hq
      obtain ⟨hf, ht⟩ := Frame.popDown_eq_ok_iff.mp hp
      refine ⟨popped, _, ht, ?_⟩
      dsimp only at h'
      rw [hf, Frame.pushAll_reverse] at h'
      exact h'
    · rintro ⟨taken, rest, ht, h⟩
      refine ⟨f.withOperands (taken ++ rest), Except.bind_eq_ok_iff.mpr
        ⟨(taken, f.withOperands rest), Frame.popDown_eq_ok_iff.mpr ⟨rfl, ht⟩, ?_⟩, h⟩
      dsimp only
      rw [Frame.pushAll_reverse]
      rfl
  · simp only [hlen, ne_eq, not_false_eq_true, if_true, false_and, iff_false]
    rintro ⟨f', h, -⟩
    cases h

/-- The check of the targets changes operands only. -/
theorem withOperands_of_checkTargets {arity : ℕ} {tss : List (List ValueType)} {f g : Frame}
    (h : checkTargets arity tss f = .ok g) : g = f.withOperands g.operands := by
  induction tss generalizing f with
  | nil =>
    cases h
    rfl
  | cons ts tss ih =>
    obtain ⟨-, taken, rest, -, h'⟩ := checkTargets_cons_eq_ok_iff.mp h
    rw [ih h']
    rfl

theorem jumpTable_eq_ok_iff {labels : List ℕ} {fallback : ℕ} {s' : State} :
    s.jumpTable labels fallback = .ok s' ↔ ∃ cond mid g, s.top.Takes [.i32] [cond] mid ∧
      checkTargets (s.labelTypes fallback).length (labels.map s.labelTypes ++ [s.labelTypes fallback])
        (s.top.withOperands mid) = .ok g ∧
      (∃ taken rest, g.Takes (s.labelTypes fallback).reverse taken rest) ∧
      s' = { s with top := s.top.markUnreachable } := by
  rw [jumpTable, onTop_eq_ok_iff]
  constructor
  · rintro ⟨top, h, rfl⟩
    obtain ⟨⟨cond, f₁⟩, hc, h₁⟩ := Except.bind_eq_ok_iff.mp h
    obtain ⟨g, hg, h₂⟩ := Except.bind_eq_ok_iff.mp h₁
    obtain ⟨g₁, hl, h₃⟩ := Except.bind_eq_ok_iff.mp h₂
    cases h₃
    obtain ⟨hf, ht⟩ := Frame.popExpect_eq_ok_iff_takes.mp hc
    obtain ⟨hg₁, taken, htk⟩ := Frame.popAll_eq_ok_iff.mp hl
    rw [hf] at hg
    refine ⟨cond, _, g, ht, hg, ⟨taken, _, htk⟩, ?_⟩
    rw [hg₁, withOperands_of_checkTargets hg]
    rfl
  · rintro ⟨cond, mid, g, ht, hg, ⟨taken, rest, htk⟩, rfl⟩
    refine ⟨_, Except.bind_eq_ok_iff.mpr ⟨(cond, s.top.withOperands mid),
      Frame.popExpect_eq_ok_iff_takes.mpr ⟨rfl, ht⟩, Except.bind_eq_ok_iff.mpr ⟨g, hg,
      Except.bind_eq_ok_iff.mpr ⟨g.withOperands rest,
        Frame.popAll_eq_ok_iff.mpr ⟨rfl, taken, htk⟩, rfl⟩⟩⟩, ?_⟩
    rw [withOperands_of_checkTargets hg]
    rfl

theorem drop_eq_ok_iff {s' : State} :
    s.drop = .ok s' ↔ ∃ t rest, s.top.Yields [t] rest ∧
      s' = { s with top := s.top.withOperands rest } := by
  rw [drop, onTop_eq_ok_iff]
  constructor
  · rintro ⟨top, h, rfl⟩
    obtain ⟨⟨t, g⟩, hp, h'⟩ := Except.bind_eq_ok_iff.mp h
    cases h'
    obtain ⟨hg, hy⟩ := Frame.pop_eq_ok_iff.mp hp
    exact ⟨t, _, hy, by rw [← hg]⟩
  · rintro ⟨t, rest, hy, rfl⟩
    exact ⟨_, Except.bind_eq_ok_iff.mpr ⟨(t, s.top.withOperands rest),
      Frame.pop_eq_ok_iff.mpr ⟨rfl, hy⟩, rfl⟩, rfl⟩

theorem select_eq_ok_iff {s' : State} :
    s.select = .ok s' ↔ ∃ cond second first rest, s.top.Yields [cond, second, first] rest ∧
      matchesType .i32 cond = true ∧ matchesType second first = true ∧
      s' = { s with top :=
        s.top.withOperands ((if second = .bottom then first else second) :: rest) } := by
  rw [select, onTop_eq_ok_iff]
  constructor
  · rintro ⟨top, h, rfl⟩
    obtain ⟨⟨cond, f₁⟩, hc, h₁⟩ := Except.bind_eq_ok_iff.mp h
    obtain ⟨⟨second, f₂⟩, hs, h₂⟩ := Except.bind_eq_ok_iff.mp h₁
    obtain ⟨⟨first, f₃⟩, hf, h₃⟩ := Except.bind_eq_ok_iff.mp h₂
    cases h₃
    obtain ⟨hcp, hcm⟩ := Frame.popExpect_eq_ok_iff.mp hc
    obtain ⟨hfp, hfm⟩ := Frame.popExpect_eq_ok_iff.mp hf
    obtain ⟨e₁, y₁⟩ := Frame.pop_eq_ok_iff.mp hcp
    obtain ⟨e₂, y₂⟩ := Frame.pop_eq_ok_iff.mp hs
    obtain ⟨e₃, y₃⟩ := Frame.pop_eq_ok_iff.mp hfp
    rw [e₁] at e₂ y₂
    rw [e₂] at e₃ y₃
    refine ⟨cond, second, first, f₃.operands,
      Frame.yields_cons.mpr ⟨_, y₁, Frame.yields_cons.mpr ⟨_, y₂, y₃⟩⟩, hcm, hfm, ?_⟩
    rw [e₃]
    rfl
  · rintro ⟨cond, second, first, rest, hy, hcm, hfm, rfl⟩
    obtain ⟨mid₁, y₁, hy₁⟩ := Frame.yields_cons.mp hy
    obtain ⟨mid₂, y₂, y₃⟩ := Frame.yields_cons.mp hy₁
    exact ⟨_, Except.bind_eq_ok_iff.mpr ⟨(cond, s.top.withOperands mid₁),
      Frame.popExpect_eq_ok_iff.mpr ⟨Frame.pop_eq_ok_iff.mpr ⟨rfl, y₁⟩, hcm⟩,
      Except.bind_eq_ok_iff.mpr ⟨(second, s.top.withOperands mid₂),
      Frame.pop_eq_ok_iff.mpr ⟨rfl, y₂⟩, Except.bind_eq_ok_iff.mpr ⟨(first, s.top.withOperands rest),
      Frame.popExpect_eq_ok_iff.mpr ⟨Frame.pop_eq_ok_iff.mpr ⟨rfl, y₃⟩, hfm⟩, rfl⟩⟩⟩, rfl⟩

/-- An instruction that has a type is typed by it. -/
theorem step_of_type {i : Instr} {type : FuncType} (h : i.type? = some type) :
    s.step results i = some <$> s.onTop fun f => f.apply type := by
  cases i <;> cases h <;> rfl

/-- An instruction that is not structural changes the operands of its frame, or ends the code of it that can run. -/
theorem step_top {i : Instr} {next : Option State} (hi : i.isStructural = false)
    (h : s.step results i = .ok next) : ∃ top, next = some { s with top } ∧
      (top = s.top.markUnreachable ∨ ∃ ts, top = s.top.withOperands ts) := by
  cases ht : i.type? with
  | some type =>
    rw [step_of_type ht] at h
    obtain ⟨s', h', rfl⟩ := Except.map_eq_ok_iff.mp h
    obtain ⟨top, ha, rfl⟩ := onTop_eq_ok_iff.mp h'
    obtain ⟨taken, rest, -, rfl⟩ := Frame.apply_eq_ok_iff.mp ha
    exact ⟨_, rfl, .inr ⟨_, rfl⟩⟩
  | none =>
    cases i with
    | unreachable =>
      cases h
      exact ⟨_, rfl, .inl rfl⟩
    | br label =>
      obtain ⟨s', h', rfl⟩ := Except.map_eq_ok_iff.mp h
      obtain ⟨-, rfl⟩ := jump_eq_ok_iff.mp h'
      exact ⟨_, rfl, .inl rfl⟩
    | brIf label =>
      obtain ⟨s', h', rfl⟩ := Except.map_eq_ok_iff.mp h
      obtain ⟨taken, rest, -, rfl⟩ := jumpIf_eq_ok_iff.mp h'
      exact ⟨_, rfl, .inr ⟨_, rfl⟩⟩
    | brTable labels fallback =>
      obtain ⟨s', h', rfl⟩ := Except.map_eq_ok_iff.mp h
      obtain ⟨cond, mid, g, -, -, -, rfl⟩ := jumpTable_eq_ok_iff.mp h'
      exact ⟨_, rfl, .inl rfl⟩
    | ret =>
      obtain ⟨s', h', rfl⟩ := Except.map_eq_ok_iff.mp h
      obtain ⟨-, rfl⟩ := jump_eq_ok_iff.mp h'
      exact ⟨_, rfl, .inl rfl⟩
    | drop =>
      obtain ⟨s', h', rfl⟩ := Except.map_eq_ok_iff.mp h
      obtain ⟨t, rest, -, rfl⟩ := drop_eq_ok_iff.mp h'
      exact ⟨_, rfl, .inr ⟨_, rfl⟩⟩
    | select =>
      obtain ⟨s', h', rfl⟩ := Except.map_eq_ok_iff.mp h
      obtain ⟨cond, second, first, rest, -, -, -, rfl⟩ := select_eq_ok_iff.mp h'
      exact ⟨_, rfl, .inr ⟨_, rfl⟩⟩
    | block _ | loop _ | ifThen _ | elseMark | endMark => cases hi
    | _ => cases ht

/-- An instruction that is not structural stays in its frame. -/
theorem step_same {i : Instr} {next : Option State} (hi : i.isStructural = false)
    (h : s.step results i = .ok next) : ∃ top, next = some { s with top } ∧ s.top.Same top := by
  obtain ⟨top, rfl, rfl | ⟨ts, rfl⟩⟩ := step_top hi h
  · exact ⟨_, rfl, s.top.same_markUnreachable⟩
  · exact ⟨_, rfl, s.top.same_withOperands ts⟩

theorem step_block_eq_ok_iff {type : FuncType} {next : Option State} :
    s.step results (.block type) = .ok next ↔
      ∃ s', s.enter .block type = .ok s' ∧ some s' = next :=
  Except.map_eq_ok_iff

theorem step_loop_eq_ok_iff {type : FuncType} {next : Option State} :
    s.step results (.loop type) = .ok next ↔
      ∃ s', s.enter .loop type = .ok s' ∧ some s' = next :=
  Except.map_eq_ok_iff

/-- An `if` takes its condition, and then it opens a frame. -/
theorem step_ifThen_eq_ok_iff {type : FuncType} {next : Option State} :
    s.step results (.ifThen type) = .ok next ↔ ∃ cond mid s', s.top.Takes [.i32] [cond] mid ∧
      State.enter { s with top := s.top.withOperands mid } .ifThen type = .ok s' ∧
        some s' = next := by
  rw [step, Except.bind_eq_ok_iff]
  constructor
  · rintro ⟨s₁, h, h'⟩
    obtain ⟨top, hp, rfl⟩ := onTop_eq_ok_iff.mp h
    obtain ⟨⟨cond, g⟩, hc, rfl⟩ := Except.map_eq_ok_iff.mp hp
    obtain ⟨s', he, hs⟩ := Except.map_eq_ok_iff.mp h'
    obtain ⟨hg, ht⟩ := Frame.popExpect_eq_ok_iff_takes.mp hc
    exact ⟨cond, g.operands, s', ht, by rw [← hg]; exact he, hs⟩
  · rintro ⟨cond, mid, s', ht, he, hs⟩
    exact ⟨_, onTop_eq_ok_iff.mpr ⟨_, Except.map_eq_ok_iff.mpr ⟨(cond, s.top.withOperands mid),
      Frame.popExpect_eq_ok_iff_takes.mpr ⟨rfl, ht⟩, rfl⟩, rfl⟩,
      Except.map_eq_ok_iff.mpr ⟨s', he, hs⟩⟩

theorem step_elseMark_eq_ok_iff {next : Option State} :
    s.step results .elseMark = .ok next ↔ ∃ s', s.switch = .ok s' ∧ some s' = next :=
  Except.map_eq_ok_iff

/-- An instruction opens a frame exactly if its operands are there.  The frame is put on top, and what is left of the
frame before it below. -/
theorem step_opens_eq_ok_iff {i : Instr} {kind : FrameKind} {type : FuncType} {next : Option State}
    (hi : i.opens? = some (kind, type)) : s.step results i = .ok next ↔ ∃ taken rest,
      s.top.Takes (i.condition ++ type.params.reverse) taken rest ∧ next = some
        { top :=
            { kind
              inputs := type.params
              outputs := type.results
              operands := type.params.reverse
              dead := s.top.unreachable || s.top.dead }
          below := s.top.withOperands rest :: s.below } := by
  cases i with
  | block type =>
    cases hi
    rw [step_block_eq_ok_iff]
    constructor
    · rintro ⟨s', h', rfl⟩
      obtain ⟨taken, rest, ht, rfl⟩ := enter_eq_ok_iff.mp h'
      exact ⟨taken, rest, ht, rfl⟩
    · rintro ⟨taken, rest, ht, rfl⟩
      exact ⟨_, enter_eq_ok_iff.mpr ⟨taken, rest, ht, rfl⟩, rfl⟩
  | loop type =>
    cases hi
    rw [step_loop_eq_ok_iff]
    constructor
    · rintro ⟨s', h', rfl⟩
      obtain ⟨taken, rest, ht, rfl⟩ := enter_eq_ok_iff.mp h'
      exact ⟨taken, rest, ht, rfl⟩
    · rintro ⟨taken, rest, ht, rfl⟩
      exact ⟨_, enter_eq_ok_iff.mpr ⟨taken, rest, ht, rfl⟩, rfl⟩
  | ifThen type =>
    cases hi
    rw [step_ifThen_eq_ok_iff]
    constructor
    · rintro ⟨cond, mid, s', hc, h', rfl⟩
      obtain ⟨taken, rest, ht, rfl⟩ := enter_eq_ok_iff.mp h'
      exact ⟨cond :: taken, rest, Frame.takes_cons.mpr ⟨cond, taken, mid, rfl, hc, ht⟩, rfl⟩
    · rintro ⟨taken, rest, ht, rfl⟩
      obtain ⟨cond, taken, mid, rfl, hc, ht⟩ := Frame.takes_cons.mp ht
      exact ⟨cond, mid, _, hc, enter_eq_ok_iff.mpr ⟨taken, rest, ht, rfl⟩, rfl⟩
  | _ => cases hi

theorem step_opens {i : Instr} {kind : FrameKind} {type : FuncType} {next : Option State}
    (hi : i.opens? = some (kind, type)) (h : s.step results i = .ok next) :
    ∃ rest, next = some
      { top :=
          { kind
            inputs := type.params
            outputs := type.results
            operands := type.params.reverse
            dead := s.top.unreachable || s.top.dead }
        below := s.top.withOperands rest :: s.below } := by
  obtain ⟨taken, rest, -, hn⟩ := (step_opens_eq_ok_iff hi).mp h
  exact ⟨rest, hn⟩

end Typing.State

end FlatWasm
