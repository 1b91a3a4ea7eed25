import Mathlib
import FlatWasm.Proofs.Flow.Lowered

/-!
# What is lowered is laid out

An expression that the pass leads over stands in the finished code: `Lowers.lays`.  The proof is one induction over the
expression that goes forward and backward.  Forward, it finds the frame and the label with which a body ends.  Backward,
the `end` says where the label is, and with this mark the branches of the body have their targets.

`Stage.Inside` says of a stage that it is in a frame that was opened at another.  A block, a loop and both branches of
an `if` are such frames, and what is needed of them is proved of all at once: where their operands start, which exit
they have, and that what is left behind is what was around them.
-/

namespace FlatWasm

open Source Lowering
open Typing (Frame FrameKind)

variable {scope : Scope} {P : Visit → Prop}

namespace Stage

/-- `z` is in a frame that was opened at `x`, and that starts above `base` operands. -/
structure Inside (x : Stage) (kind : FrameKind) (type : FuncType) (base : ℕ) (z : Stage) : Prop where
  kind : z.frames.top.kind = kind
  inputs : z.frames.top.inputs = type.params
  outputs : z.frames.top.outputs = type.results
  alive : z.frames.top.dead = false
  below : ∃ rest, z.frames.below = x.frames.top.withOperands rest :: x.frames.below ∧
    base = rest.length + (x.frames.below.flatMap Frame.operands).length

variable {x z w : Stage} {i : Instr} {kind : FrameKind} {type : FuncType} {base : ℕ}

/-- Opening a frame where code can run. -/
theorem Step.inside (h : x.Step scope P i z) (hi : i.opens? = some (kind, type))
    (hx : x.frames.live = true) :
    ∃ base, x.Inside kind type base z ∧ z.frames.live = true ∧
      z.height = base + type.params.length ∧
      x.height = base + type.params.length + if kind = .ifThen then 1 else 0 := by
  obtain ⟨hu, hd⟩ := live_eq_true_iff.mp hx
  obtain ⟨rest, hz, hlen⟩ := Typing.State.step_opens_length hu hi h.typed
  have hzf := Option.some.inj hz
  refine ⟨rest.length + (x.frames.below.flatMap Frame.operands).length,
    ⟨by rw [hzf], by rw [hzf], by rw [hzf], by rw [hzf]; exact hd, rest, by rw [hzf], rfl⟩,
    ?_, ?_, ?_⟩
  · rw [hzf]
    exact live_eq_true_iff.mpr ⟨rfl, hd⟩
  · rw [height_eq, hzf]
    show type.params.reverse.length + ((_ :: _ : List Frame).flatMap Frame.operands).length = _
    rw [List.length_reverse, List.flatMap_cons, List.length_append, Frame.withOperands_operands]
    omega
  · rw [height_eq]
    omega

namespace Inside

theorem same (h : x.Inside kind type base z) (hb : w.frames.below = z.frames.below)
    (hs : z.frames.top.Same w.frames.top) : x.Inside kind type base w :=
  ⟨hs.kind.trans h.kind, hs.inputs.trans h.inputs, hs.outputs.trans h.outputs,
    hs.dead.trans h.alive, by rw [hb]; exact h.below⟩

theorem height (h : x.Inside kind type base z) : z.height = z.frames.top.operands.length + base := by
  obtain ⟨rest, hb, rfl⟩ := h.below
  rw [height_eq, hb, List.flatMap_cons, List.length_append, Frame.withOperands_operands]

theorem floor_le (h : x.Inside kind type base z) (marks : List Mark) :
    floor (x.exits marks) ≤ base := by
  obtain ⟨rest, -, rfl⟩ := h.below
  rw [Stage.exits, Typing.State.frames, floor_exitsOf]
  omega

theorem exits (h : x.Inside kind type base z) (m : Mark) (marks : List Mark) :
    z.exits (m :: marks) =
      ⟨some m.target, base, z.frames.top.labelTypes.length, m.selected⟩ :: x.exits marks := by
  obtain ⟨rest, hb, rfl⟩ := h.below
  rw [Stage.exits, Typing.State.frames, hb, exitsOf, List.tail_cons, List.head?_cons,
    exitsOf_same (Frame.same_withOperands _ rest), exitOf, List.flatMap_cons, List.length_append,
    Frame.withOperands_operands]
  rfl

/-- A frame that closes with code that can run has its results and nothing else. -/
theorem height_of_closes {taken : List ValueType} (h : x.Inside kind type base z)
    (hlive : z.frames.live = true)
    (ht : z.frames.top.Takes z.frames.top.outputs.reverse taken []) :
    z.height = base + type.results.length := by
  have hlen := ht.length_operands (live_eq_true_iff.mp hlive).1
  rw [List.length_reverse, h.outputs, List.length_nil] at hlen
  rw [h.height]
  omega

/-- From the first branch of an `if` to the second. -/
theorem switched (h : x.Inside kind type base z) (hm : z.Step scope P .elseMark w) :
    x.Inside .ifElse type base w ∧ w.frames.live = true ∧ w.height = base + type.params.length ∧
      (z.frames.live = true → z.height = base + type.results.length) := by
  obtain ⟨s', hs, hn⟩ := Typing.State.step_elseMark_eq_ok_iff.mp hm.typed
  obtain ⟨-, ⟨taken, ht⟩, rfl⟩ := Typing.State.switch_eq_ok_iff.mp hs
  have hw := Option.some.inj hn
  have hin : x.Inside .ifElse type base w := by
    refine ⟨by rw [← hw], by rw [← hw]; exact h.inputs, by rw [← hw]; exact h.outputs,
      by rw [← hw]; exact h.alive, by rw [← hw]; exact h.below⟩
  refine ⟨hin, ?_, ?_, fun hlive => h.height_of_closes hlive ht⟩
  · rw [← hw]
    exact live_eq_true_iff.mpr ⟨rfl, h.alive⟩
  · rw [hin.height, ← hw]
    show z.frames.top.inputs.reverse.length + base = _
    rw [List.length_reverse, h.inputs]
    omega

/-- The end of a frame leads back to what was around it. -/
theorem closed (h : x.Inside kind type base z) (he : z.Step scope P .endMark w) :
    w.frames.below = x.frames.below ∧ x.frames.top.Same w.frames.top ∧
      w.frames.live = x.frames.live ∧ w.height = base + type.results.length ∧
      (z.frames.live = true → z.height = base + type.results.length) ∧
      (kind = .ifThen → type.params = type.results) := by
  obtain ⟨hif, ⟨taken, ht⟩, -⟩ := Typing.State.leave_eq_ok_iff.mp he.typed
  obtain ⟨rest, hb, hbase⟩ := h.below
  have hw := he.closed hb
  refine ⟨by rw [hw], by rw [hw]; exact ⟨rfl, rfl, rfl, rfl, id⟩, by rw [hw]; rfl, ?_,
    fun hlive => h.height_of_closes hlive ht, fun hk => ?_⟩
  · rw [height_eq, hw, h.outputs]
    show (type.results.reverse ++ rest).length +
      (x.frames.below.flatMap Frame.operands).length = _
    rw [List.length_append, List.length_reverse, hbase]
    omega
  · rw [← h.inputs, ← h.outputs]
    exact hif (h.kind.trans hk)

end Inside

theorem exits_of_same (hb : w.frames.below = x.frames.below) (hs : x.frames.top.Same w.frames.top)
    (marks : List Mark) : w.exits marks = x.exits marks := by
  rw [exits, exits, Typing.State.frames, Typing.State.frames, hb, exitsOf_same hs]

/-! ## Stages at which code can be emitted -/

theorem Ready.of_same (hx : x.Ready scope) (hb : w.frames.below = x.frames.below)
    (hs : x.frames.top.Same w.frames.top) (hsound : w.low.Sound)
    (hlen : w.low.labels.length = x.low.labels.length) : w.Ready scope := by
  refine ⟨hsound, hs.dead.trans hx.alive, by rw [hlen, hb, hx.labels], ?_⟩
  rw [← hx.results, Typing.State.frames, Typing.State.frames, List.map_cons, List.map_cons, hb,
    hs.labelTypes]

theorem Ready.inside (hx : x.Ready scope) (h : x.Inside kind type base z) (hsound : z.low.Sound)
    (hlen : z.low.labels.length = x.low.labels.length + 1) : z.Ready scope := by
  obtain ⟨rest, hb, -⟩ := h.below
  refine ⟨hsound, h.alive, by rw [hlen, hb, hx.labels, List.length_cons], ?_⟩
  rw [← hx.results, Typing.State.frames, Typing.State.frames, hb, List.map_cons, List.map_cons,
    List.getLast?_cons_cons, List.map_cons,
    (Frame.same_withOperands x.frames.top rest).labelTypes]

/-- The end of a frame, in code: its label is gone, and its slots have got the offset. -/
structure Ends (z w : Stage) (l : Label) (labels : List Label) : Prop where
  before : z.low.labels = l :: labels
  after : w.low =
    { code := z.low.code.retarget fun σ => if σ ∈ l.slots then some z.low.code.offset else none
      selected := l.selectionAfter (if z.frames.live then some z.low.selected else none)
      labels }

/-- The `end` of a frame finds the label that was pushed for it. -/
theorem Inside.ends {x₁ : Stage} {l : Label} {labels : List Label} (hx : x.Ready scope)
    (h : x.Inside kind type base z) (hl : x₁.low.labels = l :: labels)
    (hlabels : List.Forall₂ Label.Later x.low.labels labels)
    (hsize : x.low.code.size ≤ x₁.low.code.size) (hf : x₁.low.Follows z.low)
    (he : z.Step scope P .endMark w) :
    ∃ l' labels', l.Later l' ∧ z.Ends w l' labels' ∧ x.low.Follows w.low ∧ w.Ready scope := by
  have hlater := hf.labels
  rw [hl] at hlater
  obtain ⟨l', labels', hl', hlabels', hz⟩ := List.forall₂_cons_left_iff.mp hlater
  have hslots : ∀ σ ∈ l'.slots, z.low.code.HasSlot σ :=
    hf.sound.slots l' (by rw [hz]; exact List.mem_cons_self)
  have hw := he.lowered
  rw [State.step_endMark h.alive, State.leave_eq_ok _ _ _ hz hslots] at hw
  have hw' := (Except.ok.inj hw).symm
  have hwf : x.low.Follows w.low := by
    obtain ⟨s', hs', hsound, -⟩ := hf.sound.grows_leave scope z.frames.live scope.results.length
    have hs : s' = w.low := by
      rw [State.leave_eq_ok _ _ _ hz hslots] at hs'
      exact (Except.ok.inj hs').symm.trans hw'.symm
    rw [hs] at hsound
    refine ⟨hsound, ?_, ?_⟩
    · rw [hw']
      exact Nat.le_trans hsize hf.size_le
    · rw [hw']
      exact forall₂_later_trans hlabels hlabels'
  obtain ⟨hb, hs, -⟩ := h.closed he
  exact ⟨l', labels', hl', ⟨hz, hw'⟩, hwf, hx.of_same hb hs hwf.sound hwf.labels.length_eq.symm⟩

end Stage

/-- What an expression means for code: the state after it follows the state before, and it stands in finished code. -/
structure Stage.Lays (c : Listing) (e : Expr) (x y : Stage) : Prop where
  follows : x.low.Follows y.low
  laid : ∀ marks, Completes c.code marks y.low → Completes c.code marks x.low ∧
    Laid c (x.exits marks) x.low.code.size x.point e y.low.code.size y.point

/-! ## One case for each construct -/

namespace Stage

variable {c : Listing} {x x₁ x₂ x₃ x₄ x₅ y : Stage} {t : BlockType} {body orElse rest : Expr}
  {type : FuncType}

/-- Closing a frame with a label at its end, from the marks after the frame to the marks in it. -/
theorem Ends.completes {l : Label} {labels : List Label} {code : List Flat.Instr}
    {marks : List Mark} (h : x₂.Ends x₃ l labels) (hloop : l.isLoop = false)
    (hc : Completes code marks x₃.low) :
    Completes code (⟨x₂.low.code.size, x₂.low.code.size, x₃.low.selected⟩ :: marks) x₂.low := by
  rw [h.after] at hc ⊢
  exact hc.of_leave h.before hloop

theorem Ends.size {l : Label} {labels : List Label} (h : x₂.Ends x₃ l labels) :
    x₃.low.code.size = x₂.low.code.size := by
  rw [h.after]
  rfl

/-- What is known after a frame is known where its code runs through to its end. -/
theorem Ends.le_point {l : Label} {labels : List Label} {n : ℕ} (h : x₂.Ends x₃ l labels)
    (hn : x₂.frames.live = true → x₂.height = n) :
    ∀ r ∈ x₂.point, (⟨n, x₃.low.selected⟩ : Point) ≤ r := by
  intro r hr
  rw [point] at hr
  split at hr
  · next hlive =>
    cases hr
    refine ⟨(hn hlive).symm, ?_⟩
    rw [h.after, if_pos hlive]
    exact selectionAfter_le_falls _ _
  · cases hr

theorem lays_block (hx : x.Ready c.scope) (hlive : x.frames.live = true)
    (ht : t.resolve c.scope.space = some type) (h : x.Step c.scope c.Explains (.block type) x₁)
    (hb : Lowers c.scope c.Explains body x₁ x₂) (he : x₂.Step c.scope c.Explains .endMark x₃)
    (ihb : x₁.Ready c.scope → Lays c body x₁ x₂) (ihr : x₃.Ready c.scope → Lays c rest x₃ y) :
    Lays c (.block t body rest) x y := by
  have hlow : x₁.low = x.low.pushLabel .block := by
    have hl := h.lowered
    rw [State.step_of_live hlive] at hl
    exact (Except.ok.inj hl).symm
  obtain ⟨base, hin, hlive₁, hheight₁, hheight⟩ := h.inside rfl hlive
  have hsound₁ : x₁.low.Sound := by
    rw [hlow]
    exact hx.sound.pushLabel (by intro _ _ hk; cases hk)
  obtain ⟨hfollows, hlaid⟩ := ihb (hx.inside hin hsound₁ (by rw [hlow]; rfl))
  have hin₂ := hin.same hb.same.1 hb.same.2
  obtain ⟨l, labels, hlater, hends, hwf, hready⟩ := hin₂.ends hx (by rw [hlow]; rfl)
    (forall₂_later_refl _) (by rw [hlow]; exact Nat.le_refl _) hfollows he
  obtain ⟨hbelow, hsame, hlive₃, hheight₃, hheight₂, -⟩ := hin₂.closed he
  obtain ⟨hfollows₃, hrest⟩ := ihr hready
  have hloop : l.isLoop = false := by rw [Label.isLoop, hlater.1]
  refine ⟨hwf.trans hfollows₃, fun marks hc => ?_⟩
  obtain ⟨hc₃, hrest⟩ := hrest marks hc
  obtain ⟨hc₁, hbody⟩ := hlaid _ (hends.completes hloop hc₃)
  rw [hlow] at hc₁
  have harity : x₁.frames.top.labelTypes.length = type.results.length := by
    rw [Frame.labelTypes, hin.kind, hin.outputs]
  rw [hin.exits, harity, point_of_live hlive₁, hheight₁, hlow] at hbody
  rw [point_of_live (hlive₃.trans hlive), hheight₃, hends.size,
    exits_of_same hbelow hsame] at hrest
  rw [if_neg (by simp), Nat.add_zero] at hheight
  rw [point_of_live hlive]
  refine ⟨hc₁.of_pushLabel (by intro _ _ hk; cases hk), .block ht hheight (hin.floor_le marks) ?_
    (hends.le_point hheight₂) hrest⟩
  rw [hheight]
  exact hbody

theorem lays_loop (hx : x.Ready c.scope) (hlive : x.frames.live = true)
    (ht : t.resolve c.scope.space = some type) (h : x.Step c.scope c.Explains (.loop type) x₁)
    (hb : Lowers c.scope c.Explains body x₁ x₂) (he : x₂.Step c.scope c.Explains .endMark x₃)
    (ihb : x₁.Ready c.scope → Lays c body x₁ x₂) (ihr : x₃.Ready c.scope → Lays c rest x₃ y) :
    Lays c (.loop t body rest) x y := by
  have hlow : x₁.low = x.low.forget.pushLabel (.loop x.low.code.offset) := by
    have hl := h.lowered
    rw [State.step_of_live hlive] at hl
    exact (Except.ok.inj hl).symm
  obtain ⟨base, hin, hlive₁, hheight₁, hheight⟩ := h.inside rfl hlive
  have hsound₁ : x₁.low.Sound := by
    have hforget : x.low.forget.Sound := ⟨hx.sound.sized, hx.sound.slots⟩
    rw [hlow]
    exact hforget.pushLabel (by intro _ _ hk; cases hk)
  obtain ⟨hfollows, hlaid⟩ := ihb (hx.inside hin hsound₁ (by rw [hlow]; rfl))
  have hin₂ := hin.same hb.same.1 hb.same.2
  obtain ⟨l, labels, hlater, hends, hwf, hready⟩ := hin₂.ends hx (by rw [hlow]; rfl)
    (forall₂_later_refl _) (by rw [hlow]; exact Nat.le_refl _) hfollows he
  obtain ⟨hbelow, hsame, hlive₃, hheight₃, hheight₂, -⟩ := hin₂.closed he
  obtain ⟨hfollows₃, hrest⟩ := ihr hready
  -- the label is at the start, and no branch changes it
  obtain rfl := hlater.2 rfl
  refine ⟨hwf.trans hfollows₃, fun marks hc => ?_⟩
  obtain ⟨hc₃, hrest⟩ := hrest marks hc
  have hc₂ : Completes c.code (⟨x.low.code.size, 0, .unknown⟩ :: marks) x₂.low := by
    rw [hends.after] at hc₃
    exact hc₃.of_leave_loop hends.before
  obtain ⟨hc₁, hbody⟩ := hlaid _ hc₂
  rw [hlow] at hc₁
  have harity : x₁.frames.top.labelTypes.length = type.params.length := by
    rw [Frame.labelTypes, hin.kind, hin.inputs]
  rw [if_neg (by simp), Nat.add_zero] at hheight
  rw [hin.exits, harity, point_of_live hlive₁, hheight₁, ← hheight, hlow] at hbody
  rw [point_of_live (hlive₃.trans hlive), hheight₃, hends.size, exits_of_same hbelow hsame] at hrest
  rw [point_of_live hlive]
  exact ⟨(hc₁.of_pushLabel (by intro _ _ hk; cases hk)).of_selected,
    .loop ht hheight (hin.floor_le marks) hbody (hends.le_point hheight₂) hrest⟩

theorem enterIf_of_step (hlive : x.frames.live = true)
    (h : x.Step c.scope c.Explains (.ifThen type) x₁) : x₁.low = x.low.enterIf := by
  have hl := h.lowered
  rw [State.step_of_live hlive] at hl
  exact (Except.ok.inj hl).symm

theorem sound_enterIf (hx : x.Ready c.scope) : x.low.enterIf.Sound := by
  refine (hx.sound.emit _).pushLabel ?_
  intro skip onEntry hk
  cases hk
  exact Flat.Code.hasSlot_emit_next Nat.one_pos

theorem lays_ifThen (hx : x.Ready c.scope) (hlive : x.frames.live = true)
    (ht : t.resolve c.scope.space = some type) (h : x.Step c.scope c.Explains (.ifThen type) x₁)
    (hb : Lowers c.scope c.Explains body x₁ x₂) (he : x₂.Step c.scope c.Explains .endMark x₃)
    (ihb : x₁.Ready c.scope → Lays c body x₁ x₂) (ihr : x₃.Ready c.scope → Lays c rest x₃ y) :
    Lays c (.ifThen t body rest) x y := by
  have hlow := enterIf_of_step hlive h
  obtain ⟨base, hin, hlive₁, hheight₁, hheight⟩ := h.inside rfl hlive
  obtain ⟨hfollows, hlaid⟩ :=
    ihb (hx.inside hin (by rw [hlow]; exact sound_enterIf hx) (by rw [hlow]; rfl))
  have hin₂ := hin.same hb.same.1 hb.same.2
  obtain ⟨l, labels, hlater, hends, hwf, hready⟩ := hin₂.ends hx (by rw [hlow]; rfl)
    (forall₂_later_refl _) (by rw [hlow]; exact Nat.le_add_right _ _) hfollows he
  obtain ⟨hbelow, hsame, hlive₃, hheight₃, hheight₂, hio⟩ := hin₂.closed he
  obtain ⟨hfollows₃, hrest⟩ := ihr hready
  have hloop : l.isLoop = false := by rw [Label.isLoop, hlater.1]
  refine ⟨hwf.trans hfollows₃, fun marks hc => ?_⟩
  obtain ⟨hc₃, hrest⟩ := hrest marks hc
  obtain ⟨hc₁, hbody⟩ := hlaid _ (hends.completes hloop hc₃)
  rw [hlow] at hc₁
  obtain ⟨hcx, hspell⟩ := hc₁.of_enterIf hx.sound
  have harity : x₁.frames.top.labelTypes.length = type.results.length := by
    rw [Frame.labelTypes, hin.kind, hin.outputs]
  rw [hin.exits, harity, point_of_live hlive₁, hheight₁, hlow] at hbody
  rw [point_of_live (hlive₃.trans hlive), hheight₃, hends.size, exits_of_same hbelow hsame] at hrest
  rw [if_pos rfl] at hheight
  have hskip : x₃.low.selected ≤ x.low.selected := by
    rw [hends.after]
    exact selectionAfter_le_skipped _ hlater.1
  rw [point_of_live hlive]
  exact ⟨hcx, .ifThen ht (hio rfl) (h.bound hlive) hheight (hin.floor_le marks) hspell hbody
    (hends.le_point hheight₂) hskip hrest⟩

/-- An `else`, in code: the label of the first branch becomes a label at the end of the second. -/
structure Turns (z w : Stage) (skip : Flat.Slot) (onEntry : Selection) (labels : List Label) : Prop where
  sound : w.low.Sound
  selected : w.low.selected = onEntry
  labels : ∃ l : Label, l.kind = .block ∧ w.low.labels = l :: labels
  size : w.low.code.size = z.low.code.size + if z.frames.live then 5 else 0
  completes : ∀ {code : List Flat.Instr} {m : Mark} {marks : List Mark},
    Completes code (m :: marks) w.low →
      Completes code ({ m with skip := w.low.code.size } :: marks) z.low ∧
        (z.frames.live = true →
          Flat.Spells code z.low.code.size [.jump (UInt32.ofNat m.target)] ∧
            m.selected ≤ z.low.selected)

theorem Inside.turns {l : Label} {skip : Flat.Slot} {onEntry : Selection} {labels : List Label}
    {kind : FrameKind} {base : ℕ} {z w : Stage} (h : x.Inside kind type base z)
    (hsound : z.low.Sound) (hl : z.low.labels = l :: labels) (hk : l.kind = .ifThen skip onEntry)
    (hm : z.Step scope P .elseMark w) : z.Turns w skip onEntry labels := by
  obtain ⟨_, exits, branches⟩ := l
  cases hk
  have hslot : z.low.code.HasSlot skip := hsound.slots _ (by rw [hl]; exact List.mem_cons_self) _
    (List.mem_append_right _ (List.mem_singleton.mpr rfl))
  obtain ⟨t, ht⟩ : ∃ t, t = State.skipElse
    { z.low with labels := ⟨.block, exits, branches⟩ :: labels } z.frames.live := ⟨_, rfl⟩
  have hskip : t.code.HasSlot skip := by
    rw [ht, State.skipElse]
    split
    · exact hslot.emit _
    · exact hslot
  have hw := hm.lowered
  rw [State.step_elseMark h.alive, State.switch_eq_ok _ hl ht hskip] at hw
  have hw' := (Except.ok.inj hw).symm
  obtain ⟨s', hs', hs, -⟩ := hsound.grows_switch z.frames.live
  rw [State.switch_eq_ok _ hl ht hskip] at hs'
  refine ⟨?_, by rw [hw'], ?_, ?_, ?_⟩
  · rw [hw', Except.ok.inj hs']
    exact hs
  · rw [hw', ht, State.skipElse]
    dsimp only
    split
    · exact ⟨_, rfl, by rw [State.mark_eq]; rfl⟩
    · exact ⟨_, rfl, rfl⟩
  · rw [hw', ht, State.skipElse]
    dsimp only
    split <;> rfl
  · intro code m marks hc
    rw [hw'] at hc
    rw [hw']
    exact Completes.of_switch (t := t) hsound hl ht hc

theorem lays_ifElse (hx : x.Ready c.scope) (hlive : x.frames.live = true)
    (ht : t.resolve c.scope.space = some type) (h : x.Step c.scope c.Explains (.ifThen type) x₁)
    (hb : Lowers c.scope c.Explains body x₁ x₂) (hm : x₂.Step c.scope c.Explains .elseMark x₃)
    (hb' : Lowers c.scope c.Explains orElse x₃ x₄) (he : x₄.Step c.scope c.Explains .endMark x₅)
    (ihb : x₁.Ready c.scope → Lays c body x₁ x₂) (ihe : x₃.Ready c.scope → Lays c orElse x₃ x₄)
    (ihr : x₅.Ready c.scope → Lays c rest x₅ y) : Lays c (.ifElse t body orElse rest) x y := by
  have hlow := enterIf_of_step hlive h
  obtain ⟨base, hin, hlive₁, hheight₁, hheight⟩ := h.inside rfl hlive
  obtain ⟨hfollows, hlaid⟩ :=
    ihb (hx.inside hin (by rw [hlow]; exact sound_enterIf hx) (by rw [hlow]; rfl))
  have hin₂ := hin.same hb.same.1 hb.same.2
  -- the label that was pushed for the first branch
  have hlater := hfollows.labels
  rw [hlow] at hlater
  obtain ⟨l, labels, hl, hlabels, hx₂⟩ := List.forall₂_cons_left_iff.mp hlater
  replace hlabels : List.Forall₂ Label.Later x.low.labels labels := hlabels
  have hturns := hin₂.turns hfollows.sound hx₂ hl.1 hm
  obtain ⟨hin₃, hlive₃, hheight₃, hheight₂⟩ := hin₂.switched hm
  obtain ⟨l₃, hl₃, hx₃⟩ := hturns.labels
  have hlen : x₃.low.labels.length = x.low.labels.length + 1 := by
    rw [hx₃, List.length_cons, hlabels.length_eq]
  obtain ⟨hfollows', helse⟩ := ihe (hx.inside hin₃ hturns.sound hlen)
  have hin₄ := hin₃.same hb'.same.1 hb'.same.2
  have hsize : x.low.code.size ≤ x₃.low.code.size := by
    have hle := hfollows.size_le
    have h₁ : x₁.low.code.size = x.low.code.size + 5 := by rw [hlow]; rfl
    have h₂ := hturns.size
    omega
  obtain ⟨l₅, labels₅, hlater₅, hends, hwf, hready⟩ :=
    hin₄.ends hx hx₃ hlabels hsize hfollows' he
  obtain ⟨hbelow, hsame, hlive₅, hheight₅, hheight₄, -⟩ := hin₄.closed he
  obtain ⟨hfollows₅, hrest⟩ := ihr hready
  have hloop : l₅.isLoop = false := by rw [Label.isLoop, hlater₅.1, hl₃]
  refine ⟨hwf.trans hfollows₅, fun marks hc => ?_⟩
  obtain ⟨hc₅, hrest⟩ := hrest marks hc
  obtain ⟨hc₃, helse⟩ := helse _ (hends.completes hloop hc₅)
  obtain ⟨hc₂, hjump⟩ := hturns.completes hc₃
  obtain ⟨hc₁, hbody⟩ := hlaid _ hc₂
  rw [hlow] at hc₁
  obtain ⟨hcx, hspell⟩ := hc₁.of_enterIf hx.sound
  have harity₁ : x₁.frames.top.labelTypes.length = type.results.length := by
    rw [Frame.labelTypes, hin.kind, hin.outputs]
  have harity₃ : x₃.frames.top.labelTypes.length = type.results.length := by
    rw [Frame.labelTypes, hin₃.kind, hin₃.outputs]
  rw [hin.exits, harity₁, point_of_live hlive₁, hheight₁, hlow] at hbody
  rw [hin₃.exits, harity₃, point_of_live hlive₃, hheight₃, hturns.selected] at helse
  rw [point_of_live (hlive₅.trans hlive), hheight₅, hends.size, exits_of_same hbelow hsame] at hrest
  rw [if_pos rfl] at hheight
  have hskips : SkipsElse c.code ⟨base + type.results.length, x₅.low.selected⟩ x₂.point
      x₂.low.code.size x₃.low.code.size x₄.low.code.size := by
    rw [hturns.size, point]
    cases hlive₂ : x₂.frames.live with
    | false => rfl
    | true =>
      obtain ⟨hspell₂, hle⟩ := hjump hlive₂
      exact ⟨⟨(hheight₂ hlive₂).symm, hle⟩, hspell₂, rfl⟩
  rw [point_of_live hlive]
  exact ⟨hcx, .ifElse ht (h.bound hlive) hheight (hin.floor_le marks) hspell hbody hskips
    helse (hends.le_point hheight₄) hrest⟩

end Stage

/-- **What is lowered is laid out.** -/
theorem Lowers.lays {c : Listing} {e : Expr} {x y : Stage} (h : Lowers c.scope c.Explains e x y)
    (hx : x.Ready c.scope) : Stage.Lays c e x y := by
  -- where code cannot run, there is nothing to find
  have hdead : ∀ {e : Expr} {x y : Stage}, Lowers c.scope c.Explains e x y → x.Ready c.scope →
      x.frames.live = false → Stage.Lays c e x y := by
    intro e x y h hx hlive
    obtain ⟨hlow, hylive⟩ := h.low_eq hlive
    refine ⟨by rw [hlow]; exact hx.sound.follows_refl, fun marks hc => ⟨by rw [← hlow]; exact hc, ?_⟩⟩
    rw [Stage.point_of_not_live hlive, Stage.point_of_not_live hylive, hlow]
    exact .dead _ _ _
  induction h with
  | done x =>
    exact ⟨hx.sound.follows_refl, fun marks hc => ⟨hc, .done _ _ _⟩⟩
  | @op o rest i x x' y ho h hr ih =>
    cases hlive : x.frames.live with
    | false => exact hdead (.op ho h hr) hx hlive
    | true =>
      obtain ⟨hfollows, hemits⟩ := h.emits hx hlive ho
      obtain ⟨hbelow, hsame⟩ := h.same (isStructural_of_resolve ho)
      obtain ⟨hfollows', hrest⟩ :=
        ih (hx.of_same hbelow hsame hfollows.sound hfollows.labels.length_eq.symm)
      refine ⟨hfollows.trans hfollows', fun marks hc => ?_⟩
      obtain ⟨hc', hrest⟩ := hrest marks hc
      obtain ⟨hcx, hlaid⟩ := hemits marks hc'
      rw [Stage.exits_of_same hbelow hsame] at hrest
      exact ⟨hcx, hlaid _ _ _ hrest⟩
  | @block t body rest type x x₁ x₂ x₃ y ht h hb he hr ihb ihr =>
    cases hlive : x.frames.live with
    | false => exact hdead (.block ht h hb he hr) hx hlive
    | true => exact Stage.lays_block hx hlive ht h hb he ihb ihr
  | @loop t body rest type x x₁ x₂ x₃ y ht h hb he hr ihb ihr =>
    cases hlive : x.frames.live with
    | false => exact hdead (.loop ht h hb he hr) hx hlive
    | true => exact Stage.lays_loop hx hlive ht h hb he ihb ihr
  | @ifThen t body rest type x x₁ x₂ x₃ y ht h hb he hr ihb ihr =>
    cases hlive : x.frames.live with
    | false => exact hdead (.ifThen ht h hb he hr) hx hlive
    | true => exact Stage.lays_ifThen hx hlive ht h hb he ihb ihr
  | @ifElse t body orElse rest type x x₁ x₂ x₃ x₄ x₅ y ht h hb hm hb' he hr ihb ihe ihr =>
    cases hlive : x.frames.live with
    | false => exact hdead (.ifElse ht h hb hm hb' he hr) hx hlive
    | true => exact Stage.lays_ifElse hx hlive ht h hb hm hb' he ihb ihe ihr

end FlatWasm
