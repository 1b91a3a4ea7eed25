import Mathlib
import FlatWasm.Proofs.Typing.Nesting
import FlatWasm.Proofs.TypeSystem.Soundness

/-!
# Operands of which the type is known

An operand of type `bottom` is one that nothing is known of.  Such operands come from frames whose code cannot run, and some
instructions put them back: a `select` pushes one of the two that it has taken, and a branch through a table pushes what it has
looked at.  Here it is shown that they stay in these frames.  In a frame that has not been left by a jump all operands are
numeric, whatever the frames around it (`isKnown_of_step`).

So where code can run, the whole stack is known: then none of the open frames has been left by a jump (`State.allNumeric_operands`).
-/

namespace FlatWasm

open Source Typing

/-- All types that an instruction brings in are numeric. -/
structure Instr.BringsNumeric (i : Instr) : Prop where
  results : ∀ type, i.type? = some type → AllNumeric type.results
  frame : ∀ kind type, i.opens? = some (kind, type) → type.IsNumeric

theorem Source.isFixed_of_type {o : Op} {scope : Scope} {depth : ℕ} {i : Instr} {type : FuncType}
    (hi : o.resolve scope depth = some i) (ht : i.type? = some type) : o.isFixed = true := by
  cases o <;> try rfl
  all_goals
    simp only [Op.resolve, Option.map_eq_some_iff, Option.bind_eq_bind, Option.bind_eq_some_iff,
      Option.pure_def, Option.some.injEq] at hi
    grind [Instr.type?]

theorem Source.opens?_of_resolve {o : Op} {scope : Scope} {depth : ℕ} {i : Instr}
    (hi : o.resolve scope depth = some i) : i.opens? = none := by
  have hs := isStructural_of_resolve hi
  cases i <;> first | rfl | cases hs

namespace Typing

/-- In a module that is checked, and in a function of numeric types, what is accepted brings in numeric types only. -/
theorem State.bringsNumeric_of_accept {s : State} {scope : Scope} {op : UInt8} {bytes : List UInt8}
    {a : Accepted} (hc : scope.space.Complete) (hl : AllNumeric scope.locals.toList)
    (hr : AllNumeric scope.results) (h : s.accept scope op bytes = .ok a) :
    a.instr.BringsNumeric := by
  have hC : (scope.context []).IsNumeric := isNumeric_context hc hl hr (List.forall_mem_nil _)
  have hblock : ∀ {t : BlockType} {bs : List UInt8} {mk : FuncType → Instr}, t.Encoded bs →
      (t.resolve scope.space).map mk = some a.instr → ∃ type, mk type = a.instr ∧ type.IsNumeric := by
    intro t bs mk he hi
    obtain ⟨type, ht, hmk⟩ := Option.map_eq_some_iff.mp hi
    exact ⟨type, hmk, isNumeric_blockType hC he ((blockType?_eq hc t).trans ht)⟩
  obtain ⟨t, bs, ht, -, hi, -⟩ := exists_token_of_accept h
  cases ht with
  | op ho =>
    refine ⟨fun type htype => ?_, fun kind type hopens => ?_⟩
    · exact (isNumeric_of_hasType hC ho (isFixed_of_type hi htype)
        (hasType_of_resolve hc ho hi htype)).2
    · cases (opens?_of_resolve hi).symm.trans hopens
  | elseMark | endMark =>
    rw [← Option.some.inj hi]
    exact ⟨by rintro _ ⟨⟩, by rintro _ _ ⟨⟩⟩
  | block ht | loop ht | ifThen ht =>
    obtain ⟨type, hmk, hn⟩ := hblock ht hi
    rw [← hmk]
    exact ⟨by rintro _ ⟨⟩, by rintro _ _ ⟨⟩; exact hn⟩

/-- A frame in which the types of operands are known, unless it has been left by a jump. -/
structure Frame.IsKnown (f : Frame) : Prop where
  inputs : AllNumeric f.inputs
  outputs : AllNumeric f.outputs
  operands : f.unreachable = false → AllNumeric f.operands

theorem Frame.IsKnown.labelTypes {f : Frame} (h : f.IsKnown) : AllNumeric f.labelTypes := by
  rw [Frame.labelTypes]
  split
  · exact h.inputs
  · exact h.outputs

/-- What is left of the operands is known if they are. -/
theorem Frame.Yields.allNumeric {f : Frame} {taken rest : List ValueType} (h : f.Yields taken rest)
    (hf : f.IsKnown) (hu : f.unreachable = false) : AllNumeric taken ∧ AllNumeric rest := by
  have hops := hf.operands hu
  rw [h.eq_append hu] at hops
  exact List.forall_mem_append.mp hops

theorem Frame.IsKnown.withRest {f : Frame} {rest : List ValueType} (h : f.IsKnown)
    (hrest : f.unreachable = false → AllNumeric rest) : (f.withOperands rest).IsKnown :=
  ⟨h.inputs, h.outputs, hrest⟩

namespace State

variable {s t : State} {i : Instr} {results : List ValueType}

/-- What a branch carries is known. -/
theorem allNumeric_labelTypes (hs : ∀ f ∈ s.frames, f.IsKnown) (label : ℕ) :
    AllNumeric (s.labelTypes label) := by
  rw [labelTypes]
  cases hf : s.frames[label]? with
  | none => exact List.forall_mem_nil _
  | some f => exact (hs f (List.mem_of_getElem? hf)).labelTypes

/-- An instruction in the middle of a frame that can run leaves known operands, or the frame cannot run after it. -/
theorem allNumeric_of_step (hs : ∀ f ∈ s.frames, f.IsKnown) (hb : i.BringsNumeric)
    (hi : i.isStructural = false) (hu : s.top.unreachable = false)
    (h : s.step results i = .ok (some t)) :
    t.top.unreachable = true ∨ AllNumeric t.top.operands := by
  have htop : s.top.IsKnown := hs _ List.mem_cons_self
  have hrest : ∀ {ts taken rest : List ValueType}, s.top.Takes ts taken rest → AllNumeric rest :=
    fun ht => (ht.1.allNumeric htop hu).2
  cases ht : i.type? with
  | some type =>
    rw [step_of_type ht] at h
    obtain ⟨s', h', hnext⟩ := Except.map_eq_ok_iff.mp h
    obtain ⟨top, ha, rfl⟩ := onTop_eq_ok_iff.mp h'
    obtain ⟨taken, rest, htakes, rfl⟩ := Frame.apply_eq_ok_iff.mp ha
    cases hnext
    exact .inr ((hb.results type ht).reverse.append (hrest htakes))
  | none =>
    cases i with
    | unreachable =>
      cases h
      exact .inl rfl
    | br d | ret =>
      obtain ⟨s', h', hnext⟩ := Except.map_eq_ok_iff.mp h
      obtain ⟨-, rfl⟩ := jump_eq_ok_iff.mp h'
      cases hnext
      exact .inl rfl
    | brIf d =>
      obtain ⟨s', h', hnext⟩ := Except.map_eq_ok_iff.mp h
      obtain ⟨taken, rest, htakes, rfl⟩ := jumpIf_eq_ok_iff.mp h'
      cases hnext
      exact .inr ((allNumeric_labelTypes hs d).reverse.append (hrest htakes))
    | brTable ds d =>
      obtain ⟨s', h', hnext⟩ := Except.map_eq_ok_iff.mp h
      obtain ⟨cond, mid, g, -, -, -, rfl⟩ := jumpTable_eq_ok_iff.mp h'
      cases hnext
      exact .inl rfl
    | drop =>
      obtain ⟨s', h', hnext⟩ := Except.map_eq_ok_iff.mp h
      obtain ⟨u, rest, hy, rfl⟩ := drop_eq_ok_iff.mp h'
      cases hnext
      exact .inr (hy.allNumeric htop hu).2
    | select =>
      obtain ⟨s', h', hnext⟩ := Except.map_eq_ok_iff.mp h
      obtain ⟨cond, second, first, rest, hy, -, -, rfl⟩ := select_eq_ok_iff.mp h'
      cases hnext
      obtain ⟨htaken, hrest⟩ := hy.allNumeric htop hu
      -- it pushes one of the two that it has taken
      refine .inr (List.forall_mem_cons.mpr ⟨?_, hrest⟩)
      split
      · exact htaken first (by simp)
      · exact htaken second (by simp)
    | block _ | loop _ | ifThen _ | elseMark | endMark => cases hi
    | _ => cases ht

/-- **Operands that nothing is known of stay in frames that have been left by a jump.** -/
theorem isKnown_of_step (hs : ∀ f ∈ s.frames, f.IsKnown) (hb : i.BringsNumeric)
    (h : s.step results i = .ok (some t)) : ∀ f ∈ t.frames, f.IsKnown := by
  obtain ⟨htop, hbelow⟩ := List.forall_mem_cons.mp hs
  cases change_of_step h with
  | @stays _ top hi hchange =>
    refine List.forall_mem_cons.mpr ⟨?_, hbelow⟩
    rcases hchange with rfl | ⟨ts, rfl⟩
    · exact ⟨htop.inputs, htop.outputs, by rintro ⟨⟩⟩
    · refine htop.withRest fun hu => ?_
      rcases allNumeric_of_step hs hb hi hu h with hjump | hops
      · cases hu.symm.trans hjump
      · exact hops
  | @opens _ kind type rest hi =>
    have htype := hb.frame kind type hi
    refine List.forall_mem_cons.mpr
      ⟨⟨htype.params, htype.results, fun _ => htype.params.reverse⟩,
        List.forall_mem_cons.mpr ⟨htop.withRest fun hu => ?_, hbelow⟩⟩
    obtain ⟨taken, rest', htakes, hnext⟩ := (step_opens_eq_ok_iff hi).mp h
    obtain rfl : rest = rest' := congrArg Frame.operands
      (List.head_eq_of_cons_eq (congrArg State.below (Option.some.inj hnext)))
    exact (htakes.1.allNumeric htop hu).2
  | switches _ =>
    exact List.forall_mem_cons.mpr
      ⟨⟨htop.inputs, htop.outputs, fun _ => htop.inputs.reverse⟩, hbelow⟩
  | @closes parent below hsplit =>
    rw [hsplit] at hbelow
    obtain ⟨hparent, hbelow⟩ := List.forall_mem_cons.mp hbelow
    refine List.forall_mem_cons.mpr ⟨⟨hparent.inputs, hparent.outputs, fun hu => ?_⟩, hbelow⟩
    exact htop.outputs.reverse.append (hparent.operands hu)

/-- Where code can run, all operands of all frames are known. -/
theorem allNumeric_operands (hn : Nested s.frames) (hs : ∀ f ∈ s.frames, f.IsKnown)
    (hlive : s.live = true) : AllNumeric s.operands := by
  have hall : ∀ f ∈ s.frames, f.unreachable = false := by
    have hdead : s.top.dead = false := by
      rw [live, Frame.live, Bool.and_eq_true, Bool.not_eq_true', Bool.not_eq_true'] at hlive
      exact hlive.2
    have hrun : ∀ f ∈ s.frames, f.live = true :=
      List.forall_mem_cons.mpr ⟨hlive, hn.dead_eq_false hdead⟩
    intro f hf
    have hflive := hrun f hf
    rw [Frame.live, Bool.and_eq_true, Bool.not_eq_true'] at hflive
    exact hflive.1
  intro t ht
  obtain ⟨f, hf, hops⟩ := List.mem_flatMap.mp ht
  exact (hs f hf).operands (hall f hf) t hops

end State

end Typing

end FlatWasm
