import Mathlib
import FlatWasm.Proofs.Flow.Body
import FlatWasm.Proofs.Lowering.Patches
import FlatWasm.Proofs.TypeSystem.KnownTypes

/-!
# What holds between any two instructions

The walk over a body keeps frames and code side by side, and each is only right because of the other: a branch counts the
operands above a frame, an `end` looks for the label of the frame that it closes, an `else` for the jump that it has to
complete.  This file states what holds of both at every point that the walk comes to, also over a body that is refused later
on (`Stage.Invariant`), and proves it by one step and an induction over the walk (`Function.invariant_of_reaches`).

## Labels and frames

The parts about frames alone are in `Typing.Nesting` and `TypeSystem.KnownTypes`.  What is left is how labels go with frames.
A frame has a label if it was opened where code can run, and is not the function; and the label knows a jump over the first
branch of an `if` exactly as long as this branch is open.  `Labelled` compares the labels with the frames that have one, in
their order, and every instruction keeps it (`Labelled.step`).
-/

namespace FlatWasm

open Lowering Typing

/-! ## Frames and their labels -/

/-- A frame has a label if it was opened where code can run, and is not the function. -/
def Typing.Frame.hasLabel (f : Frame) : Bool :=
  !f.dead && f.kind != .function

theorem Typing.Frame.hasLabel_iff {f : Frame} :
    f.hasLabel = true ↔ f.dead = false ∧ f.kind ≠ .function := by
  rw [hasLabel, Bool.and_eq_true, Bool.not_eq_true', bne_iff_ne]

theorem Typing.Frame.hasLabel_of_dead {f : Frame} (h : f.dead = true) : f.hasLabel = false := by
  rw [hasLabel, h]
  rfl

/-- The jump over the first branch of an `if`, as long as its target is not known. -/
def Lowering.Label.skip? (l : Label) : Option Flat.Slot :=
  match l.kind with
  | .ifThen skip _ => some skip
  | _ => none

theorem Lowering.Label.exists_of_skip? {l : Label} (h : l.skip?.isSome = true) :
    ∃ skip onEntry exits branches, l = ⟨.ifThen skip onEntry, exits, branches⟩ := by
  obtain ⟨kind, exits, branches⟩ := l
  cases kind with
  | ifThen skip onEntry => exact ⟨skip, onEntry, exits, branches, rfl⟩
  | _ => cases h

/-- The frames that have labels have these labels, and a label knows a jump over its frame if the frame is the first branch of
an `if`. -/
def Labelled (fs : List Frame) (labels : List Label) : Prop :=
  labels.map (·.skip?.isSome) = (fs.filter Frame.hasLabel).map (·.kind == .ifThen)

section Labelled

variable {f g : Frame} {fs : List Frame} {l : Label} {labels labels' : List Label}

theorem labelled_cons_of_false (hf : f.hasLabel = false) :
    Labelled (f :: fs) labels ↔ Labelled fs labels := by
  rw [Labelled, Labelled, List.filter_cons_of_neg (Bool.eq_false_iff.mp hf)]

theorem labelled_cons_of_true (hf : f.hasLabel = true) :
    Labelled (f :: fs) (l :: labels) ↔
      l.skip?.isSome = (f.kind == .ifThen) ∧ Labelled fs labels := by
  rw [Labelled, Labelled, List.filter_cons_of_pos hf, List.map_cons, List.map_cons, List.cons.injEq]

/-- A frame that has a label has the first one. -/
theorem Labelled.exists_label (h : Labelled (f :: fs) labels) (hf : f.hasLabel = true) :
    ∃ l labels', labels = l :: labels' ∧ l.skip?.isSome = (f.kind == .ifThen) ∧
      Labelled fs labels' := by
  cases labels with
  | nil =>
    rw [Labelled, List.filter_cons_of_pos hf] at h
    cases h
  | cons l labels => exact ⟨l, labels, rfl, (labelled_cons_of_true hf).mp h⟩

/-- Of the innermost frame it matters what it is and where it was opened. -/
theorem Labelled.same (h : Labelled (f :: fs) labels) (hs : f.Same g) :
    Labelled (g :: fs) labels := by
  have hlabel : g.hasLabel = f.hasLabel := by
    rw [Frame.hasLabel, Frame.hasLabel, hs.dead, hs.kind]
  rw [Labelled, h, List.filter_cons, List.filter_cons, hlabel]
  split
  · rw [List.map_cons, List.map_cons, hs.kind]
  · rfl

/-- What branches note at a label does not matter. -/
theorem Labelled.later (h : Labelled fs labels) (hl : List.Forall₂ Label.Later labels labels') :
    Labelled fs labels' := by
  have hskip : labels'.map (·.skip?.isSome) = labels.map (·.skip?.isSome) := by
    clear h
    induction hl with
    | nil => rfl
    | cons hl _ ih => rw [List.map_cons, List.map_cons, ih, Label.skip?, Label.skip?, hl.1]
  rw [Labelled, hskip, h]

end Labelled

/-! ## Labels after an instruction -/

namespace Lowering.State

variable {s s' : State} {scope : Scope} {frames : Typing.State} {i : Instr}

/-- In the middle of a frame no label comes or goes. -/
theorem Sound.later_of_step (h : s.Sound) (hi : i.isStructural = false)
    (hs : s.step scope frames i = .ok s') : List.Forall₂ Label.Later s.labels s'.labels := by
  cases hlive : frames.live with
  | false =>
    rw [step_of_not_live hlive (by rintro rfl; cases hi) (by rintro rfl; cases hi)] at hs
    cases hs
    exact forall₂_later_refl _
  | true =>
    rw [step_of_live hlive] at hs
    cases hf : i.flat? with
    | some j =>
      rw [emitInstr_plain s scope frames hf] at hs
      cases hs
      exact (h.follows_emitAll _ _).labels
    | none =>
      cases i with
      | block _ | loop _ | ifThen _ | elseMark | endMark => cases hi
      | nop | unreachable =>
        cases hs
        exact forall₂_later_refl _
      | br d | brIf d =>
        cases hs
        exact (h.follows_branch scope _ _ _ _).labels
      | brTable ds d =>
        cases hs
        exact (h.follows_table scope _ _ _ _).labels
      | ret =>
        cases hs
        rw [emitReturn_eq, labels_emitAll]
        exact forall₂_later_refl _
      | _ => cases hf

/-- A frame that is opened where code can run gets a label. -/
theorem exists_label_of_opens {kind : FrameKind} {type : FuncType}
    (hi : i.opens? = some (kind, type)) (hlive : frames.live = true)
    (hs : s.step scope frames i = .ok s') :
    ∃ l, s'.labels = l :: s.labels ∧ l.skip?.isSome = (kind == .ifThen) := by
  rw [step_of_live hlive] at hs
  cases i with
  | block _ | loop _ | ifThen _ =>
    cases hi
    cases hs
    exact ⟨_, rfl, rfl⟩
  | _ => cases hi

/-- With the `else` the jump over the first branch is complete. -/
theorem exists_label_of_switch {live : Bool} {l : Label} {labels : List Label}
    (hl : s.labels = l :: labels) (hskip : l.skip?.isSome = true) (hs : s.switch live = .ok s') :
    ∃ l', s'.labels = l' :: labels ∧ l'.skip?.isSome = false := by
  obtain ⟨skip, onEntry, exits, branches, rfl⟩ := Label.exists_of_skip? hskip
  rw [switch, hl] at hs
  obtain ⟨code, -, hs⟩ := Except.bind_eq_ok_iff.mp hs
  cases hs
  cases live <;> exact ⟨_, rfl, rfl⟩

theorem labels_of_leave {live : Bool} {results : ℕ} {l : Label} {labels : List Label}
    (hl : s.labels = l :: labels) (hs : s.leave scope live results = .ok s') :
    s'.labels = labels := by
  rw [leave, hl] at hs
  obtain ⟨code, -, hs⟩ := Except.bind_eq_ok_iff.mp hs
  cases hs
  rfl

end Lowering.State

/-- **Every instruction keeps labels with their frames.** -/
theorem Labelled.step {frames frames' : Typing.State} {s s' : Lowering.State} {scope : Scope}
    {i : Instr} (h : Labelled frames.frames s.labels) (hn : Nested frames.frames) (hsound : s.Sound)
    (hc : frames.Change i frames') (hs : s.step scope frames i = .ok s') :
    Labelled frames'.frames s'.labels := by
  -- nothing happens to the code of a frame that was opened where code cannot run
  have hdead : frames.top.dead = true → s'.labels = s.labels := by
    intro hd
    rw [State.step_of_dead hd] at hs
    cases hs
    rfl
  cases hc with
  | @stays _ top hi htop =>
    refine Labelled.later ?_ (hsound.later_of_step hi hs)
    rcases htop with rfl | ⟨ts, rfl⟩
    · exact h.same frames.top.same_markUnreachable
    · exact h.same (frames.top.same_withOperands ts)
  | @opens _ kind type rest hi =>
    have hbelow := h.same (frames.top.same_withOperands rest)
    have hlive := frames.top.live_eq
    cases hd : (frames.top.unreachable || frames.top.dead) with
    | true =>
      rw [hd] at hlive
      rw [State.step_of_not_live hlive (by rintro rfl; cases hi) (by rintro rfl; cases hi)] at hs
      cases hs
      exact (labelled_cons_of_false (Frame.hasLabel_of_dead rfl)).mpr hbelow
    | false =>
      rw [hd] at hlive
      obtain ⟨l, hl, hskip⟩ := State.exists_label_of_opens hi hlive hs
      rw [hl]
      exact (labelled_cons_of_true (Frame.hasLabel_iff.mpr ⟨rfl, kind_ne_of_opens hi⟩)).mpr
        ⟨hskip, hbelow⟩
  | switches hkind =>
    cases hd : frames.top.dead with
    | true =>
      have hrest := (labelled_cons_of_false (Frame.hasLabel_of_dead hd)).mp h
      rw [hdead hd]
      refine (labelled_cons_of_false ?_).mpr hrest
      exact Frame.hasLabel_of_dead hd
    | false =>
      have hlabel : frames.top.hasLabel = true :=
        Frame.hasLabel_iff.mpr ⟨hd, by rw [hkind]; decide⟩
      obtain ⟨l, labels, hl, hskip, hrest⟩ := h.exists_label hlabel
      rw [State.step_elseMark hd] at hs
      rw [hkind] at hskip
      obtain ⟨l', hl', hskip'⟩ := State.exists_label_of_switch hl hskip hs
      rw [hl']
      refine (labelled_cons_of_true ?_).mpr ⟨hskip', hrest⟩
      exact Frame.hasLabel_iff.mpr ⟨hd, by rintro ⟨⟩⟩
  | @closes parent below hbelow =>
    rw [Typing.State.frames, hbelow] at h hn
    have hrest : Labelled (parent :: below) s'.labels := by
      cases hd : frames.top.dead with
      | true =>
        rw [hdead hd]
        exact (labelled_cons_of_false (Frame.hasLabel_of_dead hd)).mp h
      | false =>
        have hlabel : frames.top.hasLabel = true := by
          cases hn with
          | inner hk _ _ => exact Frame.hasLabel_iff.mpr ⟨hd, hk⟩
        obtain ⟨l, labels, hl, -, hrest⟩ := h.exists_label hlabel
        rw [State.step_endMark hd] at hs
        rwa [State.labels_of_leave hl hs]
    exact hrest.same (Frame.same_withOperands _ _)

/-! ## The walk -/

/-- A point that the walk over the body of a function comes to, with the heights that have been noted for the open frames and
what is left of the body.  Nothing is asked of the rest: it may be refused. -/
inductive Function.Reaches (f : Function) (space : IndexSpace) :
    Stage → (heights : List ℕ) → (rest : List UInt8) → Prop where
  | start : Reaches f space f.start [0] f.body.bytes
  | step {x : Stage} {heights : List ℕ} {op : UInt8} {bytes : List UInt8} {a : Accepted}
      {frames : Typing.State} {low : Lowering.State} (h : Reaches f space x heights (op :: bytes))
      (ha : x.frames.accept (f.subject space).scope op bytes = .ok a)
      (hlow : x.low.step (f.subject space).scope x.frames a.instr = .ok low)
      (hnext : a.next = some frames) :
      Reaches f space ⟨frames, low⟩ (noted a.instr frames heights) a.rest

namespace Stage

/-- Frames are nested, and labels go with them. -/
structure Paired (x : Stage) : Prop where
  nested : Nested x.frames.frames
  sound : x.low.Sound
  labelled : Labelled x.frames.frames x.low.labels

theorem Paired.step {x : Stage} {scope : Scope} {i : Instr} {frames : Typing.State}
    {low : Lowering.State} (h : x.Paired) (hchange : x.frames.Change i frames)
    (hlow : x.low.step scope x.frames i = .ok low) : Paired ⟨frames, low⟩ := by
  obtain ⟨s', hs', hgrows⟩ := h.sound.exists_step scope x.frames i
  cases hs'.symm.trans hlow
  exact ⟨h.nested.change hchange, hgrows.1, h.labelled.step h.nested h.sound hchange hlow⟩

/-- What one step keeps. -/
structure Holds (x : Stage) (heights : List ℕ) : Prop extends x.Paired where
  known : ∀ f ∈ x.frames.frames, f.IsKnown
  heights : heights = heightsOf x.frames.frames

theorem Holds.step {x : Stage} {heights : List ℕ} {scope : Scope} {op : UInt8} {bytes : List UInt8}
    {a : Accepted} {frames : Typing.State} {low : Lowering.State} (h : x.Holds heights)
    (hc : scope.space.Complete) (hl : AllNumeric scope.locals.toList) (hr : AllNumeric scope.results)
    (ha : x.frames.accept scope op bytes = .ok a)
    (hlow : x.low.step scope x.frames a.instr = .ok low) (hnext : a.next = some frames) :
    Holds ⟨frames, low⟩ (noted a.instr frames heights) := by
  have hstep := Typing.State.step_of_accept ha
  rw [hnext] at hstep
  have hchange := Typing.State.change_of_step hstep
  have hb := Typing.State.bringsNumeric_of_accept hc hl hr ha
  refine ⟨h.toPaired.step hchange hlow, Typing.State.isKnown_of_step h.known hb hstep, ?_⟩
  rw [h.heights, noted_heights hchange]

/-- The label of the frame at a depth: the frames inside of it that have a label have the labels before it. -/
def label? (x : Stage) (k : ℕ) : Option Label :=
  x.frames.frames[k]?.bind fun f =>
    if f.hasLabel then x.low.labels[(x.frames.frames.take k).countP Frame.hasLabel]? else none

/-- The jump over the frame at a depth that waits for an `else`. -/
def elsePatch? (x : Stage) (k : ℕ) : Option Flat.Slot :=
  (x.label? k).bind Label.skip?

/-- What holds between any two instructions.  Frames are listed from the inside out. -/
structure Invariant (x : Stage) (heights : List ℕ) : Prop where
  /-- The outermost frame is the function, and no other is. -/
  function : ∀ k f, x.frames.frames[k]? = some f → (f.kind = .function ↔ k + 1 = x.frames.depth)
  /-- What was noted for a frame when it was opened is the number of operands below it. -/
  recorded : heights = heightsOf x.frames.frames
  /-- Frames start lower and lower from the inside out. -/
  ordered : heights.Pairwise (· ≥ ·)
  /-- No frame starts above the operands. -/
  bounded : ∀ h ∈ heights, h ≤ x.frames.operands.length
  /-- A frame was opened where code cannot run if a frame around it has been left by a jump. -/
  dead : ∀ k f, x.frames.frames[k]? = some f →
    (f.dead = true ↔ ∃ g ∈ x.frames.frames.drop (k + 1), g.unreachable = true)
  /-- The frames that were opened where code can run have a label each, except the function. -/
  labels : x.low.labels.length = x.frames.frames.countP Frame.hasLabel
  /-- A jump waits for an `else` if the frame is the first branch of an `if` that can run. -/
  elsePatch : ∀ k f, x.frames.frames[k]? = some f →
    ((∃ σ, x.elsePatch? k = some σ) ↔ f.dead = false ∧ f.kind = .ifThen)
  /-- Targets that are not yet known have their four bytes in the code. -/
  patches : ∀ l ∈ x.low.labels, ∀ σ ∈ l.slots, x.low.code.IsWritten σ
  /-- Where code can run, something is known of all operands. -/
  known : x.frames.live = true → ∀ t ∈ x.frames.operands, t ≠ .bottom

/-- A filtered list has an entry at the place that is counted off in front of it. -/
theorem getElem?_filter_countP {α : Type} {p : α → Bool} {as : List α} {k : ℕ} {a : α}
    (h : as[k]? = some a) (ha : p a = true) :
    (as.filter p)[(as.take k).countP p]? = some a := by
  obtain ⟨hk, rfl⟩ := List.getElem?_eq_some_iff.mp h
  have hsplit : as.filter p = (as.take k).filter p ++ (as[k] :: (as.drop (k + 1)).filter p) := by
    conv => lhs; rw [← List.take_append_drop k as, List.drop_eq_getElem_cons hk]
    rw [List.filter_append, List.filter_cons_of_pos ha]
  rw [hsplit, List.countP_eq_length_filter, List.getElem?_append_right (Nat.le_refl _), Nat.sub_self]
  rfl

theorem Holds.exists_elsePatch_iff {x : Stage} {heights : List ℕ} (h : x.Holds heights) {k : ℕ}
    {f : Frame} (hf : x.frames.frames[k]? = some f) :
    (∃ σ, x.elsePatch? k = some σ) ↔ f.dead = false ∧ f.kind = .ifThen := by
  have hlabel : x.label? k =
      if f.hasLabel then x.low.labels[(x.frames.frames.take k).countP Frame.hasLabel]? else none := by
    rw [label?, hf]
    rfl
  rw [elsePatch?, hlabel]
  cases hhas : f.hasLabel with
  | false =>
    refine iff_of_false (by rintro ⟨σ, ⟨⟩⟩) fun hif => ?_
    rw [Frame.hasLabel_iff.mpr ⟨hif.1, by rw [hif.2]; decide⟩] at hhas
    cases hhas
  | true =>
    -- the label at the place of the frame knows a jump if the frame is the first branch of an `if`
    have hplace := congrArg (·[(x.frames.frames.take k).countP Frame.hasLabel]?) h.labelled
    simp only [List.getElem?_map, getElem?_filter_countP hf hhas, Option.map_some] at hplace
    obtain ⟨l, hl, hskip⟩ := Option.map_eq_some_iff.mp hplace
    rw [if_pos rfl, hl, Option.bind_some, ← Option.isSome_iff_exists, hskip, beq_iff_eq]
    exact ⟨fun hkind => ⟨(Frame.hasLabel_iff.mp hhas).1, hkind⟩, fun hif => hif.2⟩

theorem Holds.invariant {x : Stage} {heights : List ℕ} (h : x.Holds heights) :
    x.Invariant heights where
  function _ _ hf := h.nested.kind_iff hf
  recorded := h.heights
  ordered := h.heights ▸ pairwise_heightsOf _
  bounded := h.heights ▸ le_of_mem_heightsOf
  dead _ _ hf := h.nested.dead_iff hf
  labels := by
    have hlength := congrArg List.length h.labelled
    rwa [List.length_map, List.length_map, ← List.countP_eq_length_filter] at hlength
  elsePatch _ _ hf := h.exists_elsePatch_iff hf
  patches l hl σ hσ := (h.sound.slots l hl σ hσ).isWritten h.sound.sized
  known hlive := (Typing.State.allNumeric_operands h.nested h.known hlive).ne_bottom

end Stage

namespace Function

variable {f : Function} {space : IndexSpace}

theorem allNumeric_locals (hp : AllNumeric f.type.params) (hl : AllNumeric f.locals.toList) :
    AllNumeric (f.subject space).scope.locals.toList := by
  rw [show (f.subject space).scope.locals.toList = f.type.params ++ f.locals.toList from
    Locals.toList_prependAll _ _]
  exact hp.append hl

theorem paired_start (f : Function) : f.start.Paired where
  nested := nested_initial _
  sound := f.sound_start
  labelled := by
    rw [start, prologue]
    split <;> rfl

theorem holds_start (hr : AllNumeric f.type.results) : f.start.Holds [0] where
  toPaired := f.paired_start
  known := List.forall_mem_singleton.mpr
    ⟨List.forall_mem_nil _, hr, fun _ => List.forall_mem_nil _⟩
  heights := rfl

/-- **The invariant holds wherever the walk comes to.**  Let index spaces be those of a module that is checked, and let the
parameters, results and locals of a function be numeric. -/
theorem invariant_of_reaches {m : Module} {ceiling : UInt32} {x : Stage} {heights : List ℕ}
    {rest : List UInt8} (hm : m.checkShape ceiling = .ok ()) (hspace : m.indexSpace = .ok space)
    (hp : AllNumeric f.type.params) (hr : AllNumeric f.type.results)
    (hl : AllNumeric f.locals.toList) (h : f.Reaches space x heights rest) :
    x.Invariant heights := by
  have hc := IndexSpace.complete_of_checkShape hm hspace
  refine Stage.Holds.invariant ?_
  induction h with
  | start => exact holds_start hr
  | step _ ha hlow hnext ih => exact ih.step hc (allNumeric_locals hp hl) hr ha hlow hnext

/-! ## A point inside of three frames

Below an `if` lies an operand, the `if` has been left by a jump, and a block has been opened after that.  The body ends there,
so that it would be refused. -/

def leftIf : Function where
  index := 0
  type := ⟨[], []⟩
  locals := {}
  body := .raw [0x41, 7, 0x41, 1, 0x04, 0x40, 0x00, 0x02, 0x40]

def leftIfModule : Module where
  types := [some leftIf.type]
  functions := [0]
  code := [⟨leftIf.locals, leftIf.body.bytes⟩]

def leftIfSpace : IndexSpace where
  types := [some leftIf.type]
  functions := { defined := [0] }

theorem leftIf_invariant : leftIfModule.checkShape Limits.maxPages = .ok () ∧
    leftIfModule.indexSpace = .ok leftIfSpace ∧ ∃ x, leftIf.Reaches leftIfSpace x [1, 1, 0] [] ∧
      x.frames.frames.map Frame.kind = [.block, .ifThen, .function] ∧ x.Invariant [1, 1, 0] := by
  have hm : leftIfModule.checkShape Limits.maxPages = .ok () := by decide
  have hspace : leftIfModule.indexSpace = .ok leftIfSpace := by decide
  have hnil : AllNumeric [] := List.forall_mem_nil _
  -- two constants, the `if`, the instruction that never returns, and the block
  have h₀ : leftIf.Reaches leftIfSpace leftIf.start [0] leftIf.body.bytes := .start
  have h₁ := h₀.step rfl rfl rfl
  have h₂ := h₁.step rfl rfl rfl
  have h₃ := h₂.step rfl rfl rfl
  have h₄ := h₃.step rfl rfl rfl
  have h₅ := h₄.step rfl rfl rfl
  exact ⟨hm, hspace, _, h₅, rfl, invariant_of_reaches (f := leftIf) hm hspace hnil hnil hnil h₅⟩

end Function

end FlatWasm
