import Mathlib
import FlatWasm.Proofs.Lowering.Completion
import FlatWasm.Proofs.Source.Pass
import FlatWasm.Proofs.Typing.Heights

/-!
# Instructions in finished code

A stage of the pass has frames and code; `Laid` speaks of exits and points.  This module turns one into the other: a
frame and its mark are an exit, `exitsOf`, and the operands of all frames together are the height of a point.

Then it follows the instructions that open and close no frame.  Forward, such a step keeps the state sound and its
labels in place, so that the label that an `end` will find is the one that was pushed for it.  Backward, from the marks
after a step to the marks before it, its code is found in the finished code with its final targets: `Step.emits`.

Where code cannot run, nothing is emitted at all: `Lowers.low_eq`.
-/

namespace FlatWasm

open Source Lowering
open Typing (Frame)

/-! ## Frames as exits -/

/-- The exit of a frame, with the frames below it and its mark. -/
def exitOf (f : Frame) (below : List Frame) (m : Option Mark) : Exit :=
  { target := m.map Mark.target
    base := (below.flatMap Frame.operands).length
    arity := f.labelTypes.length
    selected := (m.map Mark.selected).getD .unknown }

/-- The exits of frames.  The outermost has no mark. -/
def exitsOf : List Frame → List Mark → List Exit
  | [], _ => []
  | f :: fs, ms => exitOf f fs ms.head? :: exitsOf fs ms.tail

@[simp] theorem length_exitsOf (fs : List Frame) (ms : List Mark) :
    (exitsOf fs ms).length = fs.length := by
  induction fs generalizing ms with
  | nil => rfl
  | cons f fs ih => rw [exitsOf, List.length_cons, ih, List.length_cons]

theorem getElem?_exitsOf (fs : List Frame) (ms : List Mark) (d : ℕ) :
    (exitsOf fs ms)[d]? = fs[d]?.map fun f => exitOf f (fs.drop (d + 1)) ms[d]? := by
  induction fs generalizing ms d with
  | nil => rfl
  | cons f fs ih =>
    cases d with
    | zero => simp [exitsOf, List.head?_eq_getElem?]
    | succ d =>
      rw [exitsOf, List.getElem?_cons_succ, List.getElem?_cons_succ, ih, List.drop_succ_cons,
        List.getElem?_tail]

theorem floor_exitsOf (f : Frame) (fs : List Frame) (ms : List Mark) :
    floor (exitsOf (f :: fs) ms) = (fs.flatMap Frame.operands).length := rfl

/-- What is on top of the innermost frame does not matter to its exits. -/
theorem exitsOf_same {f g : Frame} (h : f.Same g) (fs : List Frame) (ms : List Mark) :
    exitsOf (g :: fs) ms = exitsOf (f :: fs) ms := by
  rw [exitsOf, exitsOf, exitOf, exitOf, h.labelTypes]

namespace Stage

/-- How many operands there are. -/
def height (x : Stage) : ℕ :=
  x.frames.operands.length

/-- What is known at the end of the code, if it can be reached. -/
def point (x : Stage) : Option Point :=
  if x.frames.live then some ⟨x.height, x.low.selected⟩ else none

/-- The exits of the frames that are open. -/
def exits (x : Stage) (marks : List Mark) : List Exit :=
  exitsOf x.frames.frames marks

theorem point_of_live {x : Stage} (h : x.frames.live = true) :
    x.point = some ⟨x.height, x.low.selected⟩ := if_pos h

theorem point_of_not_live {x : Stage} (h : x.frames.live = false) : x.point = none := by
  rw [point, h]
  rfl

theorem height_eq (x : Stage) : x.height =
    x.frames.top.operands.length + (x.frames.below.flatMap Frame.operands).length := by
  rw [height, Typing.State.operands, Typing.State.frames, List.flatMap_cons, List.length_append]

end Stage

theorem live_eq_true_iff {f : Frame} :
    f.live = true ↔ f.unreachable = false ∧ f.dead = false := by
  cases hu : f.unreachable <;> cases hd : f.dead <;> simp [Frame.live, hu, hd]

theorem not_live_of_same {f g : Frame} (h : f.Same g) (hf : f.live = false) : g.live = false := by
  rw [← Bool.not_eq_true, live_eq_true_iff] at hf ⊢
  rintro ⟨hu, hd⟩
  refine hf ⟨?_, h.dead ▸ hd⟩
  rw [← Bool.not_eq_true]
  intro hfu
  rw [h.unreachable hfu] at hu
  cases hu

/-! ## Where code cannot run -/

namespace Lowering.State

variable {s : State} {scope : Scope} {frames : Typing.State} {i : Instr}

theorem step_of_dead (h : frames.top.dead = true) : s.step scope frames i = .ok s := by
  unfold step
  rw [if_pos h]
  rfl

theorem step_of_live (h : frames.live = true) :
    s.step scope frames i = s.emitInstr scope frames i := by
  obtain ⟨hu, hd⟩ := live_eq_true_iff.mp h
  unfold step
  rw [if_neg (by rw [hd]; decide), if_neg (by rw [hu]; decide)]

theorem step_of_not_live (h : frames.live = false) (he : i ≠ .elseMark) (hn : i ≠ .endMark) :
    s.step scope frames i = .ok s := by
  unfold step
  split
  · rfl
  · next hd =>
    have hu : frames.top.unreachable = true := by
      by_contra hu
      rw [Typing.State.live, live_eq_true_iff.mpr ⟨by simpa using hu, by simpa using hd⟩] at h
      cases h
    rw [if_pos hu]
    cases i <;> first | rfl | exact absurd rfl he | exact absurd rfl hn

/-- An `end` looks at the frames only to see whether code can run. -/
theorem step_endMark (h : frames.top.dead = false) :
    s.step scope frames .endMark = s.leave scope frames.live scope.results.length := by
  unfold step
  rw [if_neg (by rw [h]; decide)]
  cases hu : frames.top.unreachable <;>
    simp [Typing.State.live, Frame.live, hu, h, emitInstr]

theorem step_elseMark (h : frames.top.dead = false) :
    s.step scope frames .elseMark = s.switch frames.live := by
  unfold step
  rw [if_neg (by rw [h]; decide)]
  cases hu : frames.top.unreachable <;>
    simp [Typing.State.live, Frame.live, hu, h, emitInstr]

end Lowering.State

variable {scope : Scope} {P : Visit → Prop}

theorem Stage.Step.low_eq {x y : Stage} {i : Instr} (h : x.Step scope P i y)
    (hx : x.frames.live = false) (he : i ≠ .elseMark) (hn : i ≠ .endMark) : y.low = x.low := by
  have hl := h.lowered
  rw [State.step_of_not_live hx he hn] at hl
  exact (Except.ok.inj hl).symm

theorem Stage.Step.low_eq_of_dead {x y : Stage} {i : Instr} (h : x.Step scope P i y)
    (hx : x.frames.top.dead = true) : y.low = x.low := by
  have hl := h.lowered
  rw [State.step_of_dead hx] at hl
  exact (Except.ok.inj hl).symm

/-- A frame that is opened where code cannot run is dead. -/
theorem Stage.Step.dead_of_opened {x y : Stage} {i : Instr} {kind : Typing.FrameKind}
    {type : FuncType} (h : x.Step scope P i y) (hi : i.opens? = some (kind, type))
    (hx : x.frames.live = false) : y.frames.top.dead = true := by
  obtain ⟨rest, hy⟩ := h.opened hi
  rw [hy]
  rw [Typing.State.live, Frame.live] at hx
  cases hu : x.frames.top.unreachable <;> cases hd : x.frames.top.dead <;> simp_all

theorem not_live_of_dead {frames : Typing.State} (h : frames.top.dead = true) :
    frames.live = false := by
  rw [Typing.State.live, Frame.live, h]
  simp

/-- **Where code cannot run, nothing is emitted.** -/
theorem Lowers.low_eq {e : Expr} {x y : Stage} (h : Lowers scope P e x y)
    (hx : x.frames.live = false) : y.low = x.low ∧ y.frames.live = false := by
  induction h with
  | done x => exact ⟨rfl, hx⟩
  | @op o rest i x x' y ho h hr ih =>
    have hi := isStructural_of_resolve ho
    obtain ⟨h₁, h₂⟩ := ih (not_live_of_same (h.same hi).2 hx)
    refine ⟨h₁.trans (h.low_eq hx ?_ ?_), h₂⟩ <;> (rintro rfl; cases hi)
  | block ht h hb he hr ihb ihr =>
    have hdead := h.dead_of_opened rfl hx
    have hl₂ := (ihb (not_live_of_dead hdead)).1
    have hl₃ := he.low_eq_of_dead (hb.same.2.dead.trans hdead)
    obtain ⟨h₁, h₂⟩ := ihr (not_live_of_same (h.around rfl hb.same.1 he).2 hx)
    exact ⟨h₁.trans (hl₃.trans (hl₂.trans (h.low_eq hx nofun nofun))), h₂⟩
  | loop ht h hb he hr ihb ihr =>
    have hdead := h.dead_of_opened rfl hx
    have hl₂ := (ihb (not_live_of_dead hdead)).1
    have hl₃ := he.low_eq_of_dead (hb.same.2.dead.trans hdead)
    obtain ⟨h₁, h₂⟩ := ihr (not_live_of_same (h.around rfl hb.same.1 he).2 hx)
    exact ⟨h₁.trans (hl₃.trans (hl₂.trans (h.low_eq hx nofun nofun))), h₂⟩
  | ifThen ht h hb he hr ihb ihr =>
    have hdead := h.dead_of_opened rfl hx
    have hl₂ := (ihb (not_live_of_dead hdead)).1
    have hl₃ := he.low_eq_of_dead (hb.same.2.dead.trans hdead)
    obtain ⟨h₁, h₂⟩ := ihr (not_live_of_same (h.around rfl hb.same.1 he).2 hx)
    exact ⟨h₁.trans (hl₃.trans (hl₂.trans (h.low_eq hx nofun nofun))), h₂⟩
  | ifElse ht h hb hm hb' he hr ihb ihe ihr =>
    have hdead := h.dead_of_opened rfl hx
    have hl₂ := (ihb (not_live_of_dead hdead)).1
    have hdead₂ := hb.same.2.dead.trans hdead
    have hl₃ := hm.low_eq_of_dead hdead₂
    have hdead₃ := hm.switched_dead.trans hdead₂
    have hl₄ := (ihe (not_live_of_dead hdead₃)).1
    have hl₅ := he.low_eq_of_dead (hb'.same.2.dead.trans hdead₃)
    have hbelow := hb'.same.1.trans hm.switched_below
    obtain ⟨h₁, h₂⟩ :=
      ihr (not_live_of_same (h.around rfl (hbelow.trans hb.same.1) he).2 hx)
    exact ⟨h₁.trans (hl₅.trans (hl₄.trans (hl₃.trans
      (hl₂.trans (h.low_eq hx nofun nofun))))), h₂⟩

/-! ## Labels stay in place -/

namespace Lowering

/-- `l'` is the label `l` at a later point.  The start of a loop does not change. -/
def Label.Later (l l' : Label) : Prop :=
  l'.kind = l.kind ∧ (l.isLoop = true → l' = l)

theorem Label.Later.refl (l : Label) : l.Later l :=
  ⟨rfl, fun _ => rfl⟩

theorem Label.Later.trans {l l' l'' : Label} (h : l.Later l') (h' : l'.Later l'') : l.Later l'' := by
  refine ⟨h'.1.trans h.1, fun hl => ?_⟩
  obtain rfl := h.2 hl
  exact h'.2 hl

theorem later_branchFrom (l : Label) (σ : Flat.Slot) (selected : Selection) :
    l.Later (l.branchFrom σ selected) := by
  obtain ⟨kind, exits, branches⟩ := l
  cases kind with
  | loop entry => exact .refl _
  | block => exact ⟨rfl, by intro h; cases h⟩
  | ifThen skip onEntry => exact ⟨rfl, by intro h; cases h⟩

theorem forall₂_later_refl (labels : List Label) : List.Forall₂ Label.Later labels labels :=
  List.forall₂_same.mpr fun l _ => .refl l

theorem forall₂_later_trans {ls ls' ls'' : List Label} (h : List.Forall₂ Label.Later ls ls')
    (h' : List.Forall₂ Label.Later ls' ls'') : List.Forall₂ Label.Later ls ls'' := by
  induction h generalizing ls'' with
  | nil =>
    cases h'
    exact .nil
  | cons hl _ ih =>
    cases h' with
    | cons hl' hls' => exact .cons (hl.trans hl') (ih hls')

theorem forall₂_later_modify (labels : List Label) (d : ℕ) (σ : Flat.Slot) (selected : Selection) :
    List.Forall₂ Label.Later labels (labels.modify d (·.branchFrom σ selected)) := by
  induction labels generalizing d with
  | nil =>
    rw [List.modify_nil]
    exact .nil
  | cons l ls ih =>
    cases d with
    | zero =>
      rw [List.modify_zero_cons]
      exact .cons (later_branchFrom l σ selected) (forall₂_later_refl ls)
    | succ d =>
      rw [List.modify_succ_cons]
      exact .cons (.refl l) (ih d)

theorem forall₂_later_markLabels (selected : Selection) (es : List (ℕ × Flat.Slot))
    (labels : List Label) :
    List.Forall₂ Label.Later labels (State.markLabels selected es labels) := by
  induction es generalizing labels with
  | nil => exact forall₂_later_refl labels
  | cons e es ih => exact forall₂_later_trans (forall₂_later_modify _ _ _ _) (ih _)

namespace State

/-- `s'` comes after `s` in the same frame. -/
structure Follows (s s' : State) : Prop where
  sound : s'.Sound
  size_le : s.code.size ≤ s'.code.size
  labels : List.Forall₂ Label.Later s.labels s'.labels

theorem Sound.follows_refl {s : State} (h : s.Sound) : s.Follows s :=
  ⟨h, Nat.le_refl _, forall₂_later_refl _⟩

theorem Follows.trans {s s' s'' : State} (h : s.Follows s') (h' : s'.Follows s'') :
    s.Follows s'' :=
  ⟨h'.sound, Nat.le_trans h.size_le h'.size_le, forall₂_later_trans h.labels h'.labels⟩

theorem Sound.follows_emitAll {s : State} (h : s.Sound) (is : List Flat.Instr)
    (selected : Selection) : s.Follows { s.emitAll is with selected } :=
  ⟨⟨(h.emitAll is).sized, (h.emitAll is).slots⟩, s.le_size_emitAll is, by
    show List.Forall₂ _ _ (s.emitAll is).labels
    rw [labels_emitAll]
    exact forall₂_later_refl _⟩

theorem Sound.follows_branch {s : State} (h : s.Sound) (scope : Scope) (kind : BranchKind)
    (depth : ℕ) (keep drop : UInt32) : s.Follows (s.emitBranch scope kind depth keep drop) := by
  obtain ⟨hsound, hsize⟩ := h.grows_branch scope kind depth keep drop
  refine ⟨hsound, hsize, ?_⟩
  rw [emitBranch]
  split
  · rw [emitReturn_eq, labels_emitAll]
    exact forall₂_later_refl _
  · exact forall₂_later_modify _ _ _ _

theorem Sound.follows_table {s : State} (h : s.Sound) (scope : Scope) (keep : UInt32)
    (dropTo : ℕ → UInt32) (depths : List ℕ) (fallback : ℕ) :
    s.Follows (s.emitTable scope keep dropTo depths fallback) := by
  obtain ⟨hsound, hsize⟩ := h.grows_table scope keep dropTo depths fallback
  refine ⟨hsound, hsize, ?_⟩
  rw [emitTable_eq]
  show List.Forall₂ _ _ (s.mark _).labels
  rw [mark_eq]
  exact forall₂_later_markLabels _ _ _

end State

end Lowering

/-! ## Instructions without a body -/

/-- What a listing has to know of an instruction that the pass comes by. -/
structure Listing.Explains (c : Listing) (v : Visit) : Prop where
  source : ∀ n, v.before.low.code.size ≤ n → n < v.after.code.size → c.source n = some v.instr
  bound : v.before.frames.live = true → c.bound v.before.height

/-- A stage at which code can be emitted. -/
structure Stage.Ready (scope : Scope) (x : Stage) : Prop where
  sound : x.low.Sound
  alive : x.frames.top.dead = false
  /-- Every frame but the function has a label. -/
  labels : x.low.labels.length = x.frames.below.length
  results : (x.frames.frames.map Frame.labelTypes).getLast? = some scope.results

namespace Stage

variable {c : Listing} {x y : Stage} {o : Op} {i : Instr}

theorem Ready.labelTypes_below (h : x.Ready scope) :
    x.frames.labelTypes x.frames.below.length = scope.results := by
  have hlast := h.results
  rw [List.getLast?_eq_getElem?, List.length_map, List.getElem?_map] at hlast
  rw [Typing.State.labelTypes]
  have hlen : x.frames.frames.length - 1 = x.frames.below.length := rfl
  rw [hlen] at hlast
  rw [hlast]
  rfl

theorem unreachable_of_live (h : x.frames.live = true) : x.frames.top.unreachable = false :=
  (live_eq_true_iff.mp h).1

/-- `ex` is the exit of the label at a depth. -/
structure IsExit (x : Stage) (marks : List Mark) (d : ℕ) (ex : Exit) : Prop where
  getElem? : (x.exits marks)[d]? = some ex
  target : ex.target = marks[d]?.map Mark.target
  selected : ex.selected = (marks[d]?.map Mark.selected).getD .unknown
  arity : ex.arity = (x.frames.labelTypes d).length
  base_le : ex.base ≤ floor (x.exits marks)
  height : x.height = x.frames.operandsAbove d + ex.base

/-- A label that is in range has an exit. -/
theorem exists_isExit (marks : List Mark) {d : ℕ} (hd : d < x.frames.depth) :
    ∃ ex, x.IsExit marks d ex := by
  have hlt : d < x.frames.frames.length := hd
  refine ⟨exitOf x.frames.frames[d] (x.frames.frames.drop (d + 1)) marks[d]?, ?_, rfl, rfl, ?_, ?_, ?_⟩
  · rw [exits, getElem?_exitsOf, List.getElem?_eq_getElem hlt]
    rfl
  · rw [Typing.State.labelTypes, List.getElem?_eq_getElem hlt]
    rfl
  · show ((x.frames.below.drop d).flatMap Frame.operands).length ≤
      (x.frames.below.flatMap Frame.operands).length
    conv => rhs; rw [← List.take_append_drop d x.frames.below, List.flatMap_append,
      List.length_append]
    exact Nat.le_add_left _ _
  · rw [Stage.height, Typing.State.operands, Typing.State.operandsAbove]
    conv => lhs; rw [← List.take_append_drop (d + 1) x.frames.frames, List.flatMap_append,
      List.length_append]
    rfl

namespace IsExit

variable {marks : List Mark} {d h k : ℕ} {ex : Exit} (hex : x.IsExit marks d ex)
include hex

/-- What is dropped from a height that is `k` below the height of the stage. -/
theorem dropped (hk : x.height = h + k) :
    ex.dropped h = x.frames.operandsAbove d - ((x.frames.labelTypes d).length + k) := by
  have harity := hex.arity
  have hheight := hex.height
  rw [Exit.dropped]
  omega

theorem code (scope : Scope) (kind : BranchKind) (pc : ℕ) (hk : x.height = h + k) :
    ex.code scope kind pc h = branchCode scope kind pc
      (UInt32.ofNat (x.frames.labelTypes d).length)
      (UInt32.ofNat (x.frames.operandsAbove d - ((x.frames.labelTypes d).length + k)))
      marks[d]? := by
  rw [Exit.code, hex.target, hex.dropped hk, hex.arity]
  cases marks[d]? <;> rfl

theorem entry (scope : Scope) (hk : x.height = h + k) :
    ex.entry scope h = branchEntry scope
      (UInt32.ofNat (x.frames.operandsAbove d - ((x.frames.labelTypes d).length + k)))
      marks[d]? := by
  rw [Exit.entry, hex.target, hex.dropped hk]
  cases marks[d]? <;> rfl

theorem admits {selected : Selection} (hk : x.height = h + k)
    (hcarried : (x.frames.labelTypes d).length + k ≤ x.frames.top.operands.length)
    (hsel : ∀ m, marks[d]? = some m → m.selected ≤ selected) :
    ex.Admits (floor (x.exits marks)) ⟨h, selected⟩ := by
  refine ⟨?_, hex.base_le, ?_⟩
  · have hheight := x.height_eq
    have harity := hex.arity
    rw [exits, Typing.State.frames, floor_exitsOf]
    show _ ≤ h
    omega
  · rw [hex.selected]
    cases hm : marks[d]? with
    | none => exact Selection.unknown_le _
    | some m => exact hsel m hm

end IsExit

/-- What an instruction without a body means for code: the state after it follows the state before, and its code stands
in finished code before the code of what comes after. -/
structure Emits (c : Listing) (o : Op) (x y : Stage) : Prop where
  follows : x.low.Follows y.low
  laid : ∀ marks, Completes c.code marks y.low → Completes c.code marks x.low ∧
    ∀ rest pc' q, Laid c (x.exits marks) y.low.code.size y.point rest pc' q →
      Laid c (x.exits marks) x.low.code.size x.point (.op o rest) pc' q

theorem length_exits (x : Stage) (marks : List Mark) : (x.exits marks).length = x.frames.depth := by
  rw [exits, length_exitsOf]
  rfl

/-- Where nothing can be reached, nothing is laid out. -/
theorem eq_of_laid_none {exits : List Exit} {pc pc' : ℕ} {e : Expr} {q : Option Point}
    (h : Laid c exits pc none e pc' q) : pc' = pc ∧ q = none := by
  cases h <;> exact ⟨rfl, rfl⟩

theorem Step.bound (h : x.Step c.scope c.Explains i y) (hlive : x.frames.live = true) :
    c.bound x.height := by
  obtain ⟨_, hv⟩ := h.holds
  exact hv.bound hlive

theorem Step.source (h : x.Step c.scope c.Explains i y) (n : ℕ) (hn : x.low.code.size ≤ n)
    (hn' : n < y.low.code.size) : c.source n = some i := by
  obtain ⟨_, hv⟩ := h.holds
  exact hv.source n hn hn'

theorem emits_plain {j : Flat.Instr} (hx : x.Ready c.scope) (hlive : x.frames.live = true)
    (ho : o.resolve c.scope x.frames.depth = some i) (hj : i.flat? = some j)
    (h : x.Step c.scope c.Explains i y) : x.Emits c o y := by
  have hu := unreachable_of_live hlive
  obtain ⟨a, b, he⟩ : ∃ a b, i.effect? = some (a, b) := by
    cases i <;> first | exact ⟨_, _, rfl⟩ | cases hj
  obtain ⟨ops, hy, hle, hlen⟩ := Typing.State.step_effect hu he h.typed
  have hyf : y.frames = { x.frames with top := x.frames.top.withOperands ops } :=
    Option.some.inj hy
  have hlow : y.low = { x.low.emitAll (i.markers x.low.selected ++ [j]) with
      selected := i.forgetting (i.selecting x.low.selected) } := by
    have hl := h.lowered
    rw [State.step_of_live hlive, State.emitInstr_plain _ _ _ hj] at hl
    exact (Except.ok.inj hl).symm
  have hsize : y.low.code.size = x.low.code.size +
      (Flat.encode (i.markers x.low.selected ++ [j])).length := by
    rw [hlow]
    exact State.size_emitAll _ _
  refine ⟨by rw [hlow]; exact hx.sound.follows_emitAll _ _, fun marks hc => ?_⟩
  rw [hlow] at hc
  obtain ⟨hcx, hspell⟩ := hc.of_selected.of_emitAll hx.sound
  refine ⟨hcx, fun rest pc' q hrest => ?_⟩
  have hylive : y.frames.live = true := by rw [hyf]; exact hlive
  have hheight : y.height = x.height - a + b := by
    rw [Stage.height_eq, Stage.height_eq, hyf]
    show ops.length + (x.frames.below.flatMap Frame.operands).length = _
    omega
  rw [point_of_live hlive]
  rw [point_of_live hylive, hheight, hsize, hlow] at hrest
  refine .plain (by rw [length_exits]; exact ho) hj he (h.bound hlive) ?_ hspell ?_ hrest
  · rw [exits, Typing.State.frames, floor_exitsOf]
    show _ ≤ x.height
    rw [Stage.height_eq]
    omega
  · intro n hn hn'
    exact h.source n hn (by rw [hsize]; exact hn')

theorem emits_nop (hx : x.Ready c.scope) (hlive : x.frames.live = true)
    (ho : o.resolve c.scope x.frames.depth = some .nop)
    (h : x.Step c.scope c.Explains .nop y) : x.Emits c o y := by
  obtain ⟨ops, hy, -, hlen⟩ := Typing.State.step_effect (unreachable_of_live hlive) rfl h.typed
  have hyf : y.frames = { x.frames with top := x.frames.top.withOperands ops } :=
    Option.some.inj hy
  have hlow : y.low = x.low := by
    have hl := h.lowered
    rw [State.step_of_live hlive] at hl
    exact (Except.ok.inj hl).symm
  have hylive : y.frames.live = true := by rw [hyf]; exact hlive
  have hheight : y.height = x.height := by
    rw [Stage.height_eq, Stage.height_eq, hyf]
    show ops.length + (x.frames.below.flatMap Frame.operands).length = _
    rw [hlen]
    rfl
  refine ⟨by rw [hlow]; exact hx.sound.follows_refl, fun marks hc => ⟨by rw [← hlow]; exact hc, ?_⟩⟩
  intro rest pc' q hrest
  rw [point_of_live hylive, hheight, hlow] at hrest
  rw [point_of_live hlive]
  exact .nop (by rw [length_exits]; exact ho) hrest

theorem emits_unreachable (hx : x.Ready c.scope) (hlive : x.frames.live = true)
    (ho : o.resolve c.scope x.frames.depth = some .unreachable)
    (h : x.Step c.scope c.Explains .unreachable y) : x.Emits c o y := by
  have hyf : y.frames = { x.frames with top := x.frames.top.markUnreachable } :=
    (Option.some.inj (Except.ok.inj h.typed)).symm
  have hlow : y.low = x.low.emitAll [.unreachable] := by
    have hl := h.lowered
    rw [State.step_of_live hlive] at hl
    exact (Except.ok.inj hl).symm
  have hy : y.point = none := point_of_not_live (by rw [hyf]; rfl)
  have hfollows := hx.sound.follows_emitAll [.unreachable] (x.low.emitAll [.unreachable]).selected
  refine ⟨by rw [hlow]; exact hfollows, fun marks hc => ?_⟩
  rw [hlow] at hc
  obtain ⟨hcx, hspell⟩ := hc.of_emitAll hx.sound
  refine ⟨hcx, fun rest pc' q hrest => ?_⟩
  rw [hy] at hrest
  obtain ⟨rfl, rfl⟩ := eq_of_laid_none hrest
  rw [point_of_live hlive, hlow]
  exact .unreachable (by rw [length_exits]; exact ho) hspell

/-- A branch or a return is emitted as a branch; the function has no label. -/
theorem emitInstr_leaves {label : ℕ} (hx : x.Ready scope)
    (hl : i.leaves? x.frames.depth = some label) :
    x.low.emitInstr scope x.frames i = .ok (x.low.emitBranch scope .always label
      (UInt32.ofNat (x.frames.labelTypes label).length)
      (UInt32.ofNat (x.frames.operandsAbove label - (x.frames.labelTypes label).length))) := by
  cases i with
  | br d =>
    cases hl
    rfl
  | ret =>
    cases hl
    have hnone : x.low.labels[x.frames.below.length]? = none := by
      rw [List.getElem?_eq_none_iff, hx.labels]
    rw [show x.frames.depth - 1 = x.frames.below.length from rfl, hx.labelTypes_below,
      State.emitBranch, hnone]
    rfl
  | _ => cases hl

theorem label_lt_of_leaves {label : ℕ} (ho : o.resolve c.scope x.frames.depth = some i)
    (hl : i.leaves? x.frames.depth = some label) : label < x.frames.depth := by
  cases i with
  | br d =>
    cases hl
    exact label_lt_of_resolve ho _ (List.mem_singleton.mpr rfl)
  | ret =>
    cases hl
    exact Nat.lt_succ_self _
  | _ => cases hl

theorem emits_leave {label : ℕ} (hx : x.Ready c.scope) (hlive : x.frames.live = true)
    (ho : o.resolve c.scope x.frames.depth = some i)
    (hl : i.leaves? x.frames.depth = some label) (h : x.Step c.scope c.Explains i y) :
    x.Emits c o y := by
  obtain ⟨hy, hcarried⟩ := Typing.State.step_leaves (unreachable_of_live hlive)
    hx.labelTypes_below hl h.typed
  have hlow := h.lowered
  rw [State.step_of_live hlive, emitInstr_leaves hx hl] at hlow
  have hlow' := (Except.ok.inj hlow).symm
  have hypoint : y.point = none := point_of_not_live (by rw [Option.some.inj hy]; rfl)
  refine ⟨by rw [hlow']; exact hx.sound.follows_branch _ _ _ _ _, fun marks hc => ?_⟩
  rw [hlow'] at hc
  obtain ⟨hcx, hspell, hsize, hsel⟩ := hc.of_emitBranch hx.sound
  refine ⟨hcx, fun rest pc' q hrest => ?_⟩
  rw [hypoint] at hrest
  obtain ⟨rfl, rfl⟩ := eq_of_laid_none hrest
  obtain ⟨ex, hex⟩ := exists_isExit marks (label_lt_of_leaves ho hl)
  have hk : x.height = x.height + 0 := rfl
  have hcode : ex.code c.scope .always x.low.code.size x.height =
      branchCode c.scope .always x.low.code.size (UInt32.ofNat (x.frames.labelTypes label).length)
        (UInt32.ofNat (x.frames.operandsAbove label - (x.frames.labelTypes label).length))
        marks[label]? := hex.code c.scope .always _ hk
  rw [point_of_live hlive, hlow', hsize, ← hcode]
  rw [← hcode] at hspell
  exact .leave (by rw [length_exits]; exact ho) (by rw [length_exits]; exact hl) hex.getElem?
    (h.bound hlive) (hex.admits hk hcarried hsel) hspell

theorem emits_brIf {label : ℕ} (hx : x.Ready c.scope) (hlive : x.frames.live = true)
    (ho : o.resolve c.scope x.frames.depth = some (.brIf label))
    (h : x.Step c.scope c.Explains (.brIf label) y) : x.Emits c o y := by
  obtain ⟨ops, hy, hcarried, hlen⟩ :=
    Typing.State.step_brIf (unreachable_of_live hlive) h.typed
  have hyf : y.frames = { x.frames with top := x.frames.top.withOperands ops } :=
    Option.some.inj hy
  have hlow : y.low = x.low.emitBranch c.scope .ifNonzero label
      (UInt32.ofNat (x.frames.labelTypes label).length)
      (UInt32.ofNat
        (x.frames.operandsAbove label - ((x.frames.labelTypes label).length + 1))) := by
    have hl := h.lowered
    rw [State.step_of_live hlive] at hl
    exact (Except.ok.inj hl).symm
  have hylive : y.frames.live = true := by rw [hyf]; exact hlive
  have hheight : x.height = y.height + 1 := by
    rw [Stage.height_eq, Stage.height_eq, hyf]
    show _ = ops.length + (x.frames.below.flatMap Frame.operands).length + 1
    omega
  refine ⟨by rw [hlow]; exact hx.sound.follows_branch _ _ _ _ _, fun marks hc => ?_⟩
  rw [hlow] at hc
  obtain ⟨hcx, hspell, hsize, hsel⟩ := hc.of_emitBranch hx.sound
  refine ⟨hcx, fun rest pc' q hrest => ?_⟩
  obtain ⟨ex, hex⟩ :=
    exists_isExit marks (label_lt_of_resolve ho label (List.mem_singleton.mpr rfl))
  have hselects : y.low.selected = x.low.selected := by
    rw [hlow, State.emitBranch]
    split
    · rw [State.emitReturn_eq, State.selected_emitAll]
    · rfl
  rw [point_of_live hylive, hselects, hlow, hsize, ← hex.code c.scope .ifNonzero _ hheight]
    at hrest
  rw [← hex.code c.scope .ifNonzero _ hheight] at hspell
  rw [point_of_live hlive]
  exact .brIf (by rw [length_exits]; exact ho) hex.getElem? (h.bound hlive) hheight
    (hex.admits hheight (by omega) hsel) hspell hrest

theorem emits_brTable {labels : List ℕ} {fallback : ℕ} (hx : x.Ready c.scope)
    (hlive : x.frames.live = true)
    (ho : o.resolve c.scope x.frames.depth = some (.brTable labels fallback))
    (h : x.Step c.scope c.Explains (.brTable labels fallback) y) : x.Emits c o y := by
  obtain ⟨hy, harity, hcarried⟩ :=
    Typing.State.step_brTable (unreachable_of_live hlive) h.typed
  have hlow : y.low = x.low.emitTable c.scope
      (UInt32.ofNat (x.frames.labelTypes fallback).length)
      (fun d => UInt32.ofNat
        (x.frames.operandsAbove d - ((x.frames.labelTypes fallback).length + 1)))
      labels fallback := by
    have hl := h.lowered
    rw [State.step_of_live hlive] at hl
    exact (Except.ok.inj hl).symm
  have hypoint : y.point = none := point_of_not_live (by rw [Option.some.inj hy]; rfl)
  have hbound := label_lt_of_resolve ho
  refine ⟨by rw [hlow]; exact hx.sound.follows_table _ _ _ _ _, fun marks hc => ?_⟩
  rw [hlow] at hc
  obtain ⟨hcx, hspell, hsize, hsel⟩ := hc.of_emitTable hx.sound
  refine ⟨hcx, fun rest pc' q hrest => ?_⟩
  rw [hypoint] at hrest
  obtain ⟨rfl, rfl⟩ := eq_of_laid_none hrest
  obtain ⟨n, hn⟩ : ∃ n, x.height = n + 1 := by
    have := x.height_eq
    exact ⟨x.height - 1, by omega⟩
  obtain ⟨ex, hex⟩ :=
    exists_isExit marks (hbound fallback (List.mem_append_right _ (List.mem_singleton.mpr rfl)))
  have hexits : ∀ d ∈ labels, ∃ ex, x.IsExit marks d ex := fun d hd =>
    exists_isExit marks (hbound d (List.mem_append_left _ hd))
  have : Nonempty Exit := ⟨ex⟩
  choose! exit hexit using hexits
  have hentries : (labels.map exit).map (·.entry c.scope n) =
      labels.map fun d => branchEntry c.scope (UInt32.ofNat (x.frames.operandsAbove d -
        ((x.frames.labelTypes fallback).length + 1))) marks[d]? := by
    rw [List.map_map]
    refine List.map_congr_left fun d hd => ?_
    rw [Function.comp_apply, (hexit d hd).entry c.scope hn, harity d hd]
  rw [← hlow] at hsize
  rw [← hentries, ← hex.entry c.scope hn, ← hex.arity] at hspell hsize
  rw [point_of_live hlive, hsize]
  refine .brTable (by rw [length_exits]; exact ho) ?_ hex.getElem? (h.bound hlive) hn ?_ ?_
    hspell
  · exact List.forall₂_map_right_iff.mpr (List.forall₂_same.mpr fun d hd => (hexit d hd).getElem?)
  · intro y hy
    obtain ⟨d, hd, rfl⟩ := List.mem_map.mp hy
    rw [(hexit d hd).arity, hex.arity, harity d hd]
  · intro y hy
    rcases List.mem_append.mp hy with hy | hy
    · obtain ⟨d, hd, rfl⟩ := List.mem_map.mp hy
      exact (hexit d hd).admits hn (by rw [harity d hd]; exact hcarried)
        (hsel d (List.mem_append_left _ hd))
    · rw [List.mem_singleton.mp hy]
      exact hex.admits hn hcarried
        (hsel fallback (List.mem_append_right _ (List.mem_singleton.mpr rfl)))

/-- **An instruction without a body.** -/
theorem Step.emits (hx : x.Ready c.scope) (hlive : x.frames.live = true)
    (ho : o.resolve c.scope x.frames.depth = some i) (h : x.Step c.scope c.Explains i y) :
    x.Emits c o y := by
  have hi := isStructural_of_resolve ho
  cases i with
  | nop => exact emits_nop hx hlive ho h
  | unreachable => exact emits_unreachable hx hlive ho h
  | br label => exact emits_leave hx hlive ho rfl h
  | ret => exact emits_leave hx hlive ho rfl h
  | brIf label => exact emits_brIf hx hlive ho h
  | brTable labels fallback => exact emits_brTable hx hlive ho h
  | block _ | loop _ | ifThen _ | elseMark | endMark => cases hi
  | _ => exact emits_plain hx hlive ho rfl h

end Stage

end FlatWasm
