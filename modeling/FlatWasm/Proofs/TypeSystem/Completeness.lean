import Mathlib
import FlatWasm.Proofs.Flow.Body
import FlatWasm.Proofs.TypeSystem.Soundness

/-!
# What has a derivation is accepted

A derivation picks a stack at every point of the code, and the walk goes along with it: as long as the frame describes the
stack of the derivation, every instruction is accepted, and the frame after it describes the next stack.  The lowering never
refuses anything, so the walk gets to its end.

With the converse from `Soundness`, the functions that are lowered are those whose bodies are the bytes of a well-typed
expression.
-/

namespace FlatWasm.Source

open Typing

variable {scope : Scope} {s : State} {f : Frame}

theorem Below.trans {t u v : ValueType} (h : Below t u) (h' : Below u v) : Below t v := by
  rcases h with rfl | rfl
  · exact h'
  · exact .inr rfl

theorem forall₂_below_trans {ts us vs : List ValueType} (h : List.Forall₂ Below ts us)
    (h' : List.Forall₂ Below us vs) : List.Forall₂ Below ts vs := by
  induction h generalizing vs with
  | nil => exact h'
  | cons h _ ih =>
    cases h' with
    | cons h' hs' => exact .cons (h.trans h') (ih hs')

/-- What a branch carries is on top of what it takes. -/
theorem exists_takes_label {us ps label stack : List ValueType} (hd : f.Describes (us ++ stack))
    (hu : List.Forall₂ Below us (label ++ ps)) : ∃ taken rest, f.Takes label taken rest := by
  rw [← List.take_append_drop label.length us, List.append_assoc] at hd
  obtain ⟨taken, rest, ht, -⟩ := hd.exists_takes (List.forall₂_take_append us label ps hu)
  exact ⟨taken, rest, ht⟩

/-- All targets of a table are checked against the same operands. -/
theorem exists_checkTargets {us stack : List ValueType} {tss : List (List ValueType)}
    (hd : f.Describes (us ++ stack)) (h : ∀ ts ∈ tss, List.Forall₂ Below us ts.reverse) :
    ∃ g, State.checkTargets us.length tss f = .ok g ∧ g.Describes (us ++ stack) := by
  induction tss generalizing f with
  | nil => exact ⟨f, rfl, hd⟩
  | cons ts tss ih =>
    obtain ⟨hts, htss⟩ := List.forall_mem_cons.mp h
    obtain ⟨taken, rest, ht, hm, hrest⟩ := hd.exists_takes hts
    obtain ⟨g, hg, hdg⟩ := ih (hrest.push hm) htss
    refine ⟨g, State.checkTargets_cons_eq_ok_iff.mpr ⟨?_, taken, rest, ht, hg⟩, hdg⟩
    rw [hts.length_eq, List.length_reverse]

/-- A label of the context is one of an open frame. -/
theorem lt_depth_of_getElem?_labels {l : ℕ} {ts : List ValueType}
    (h : (scope.context s.labels).labels[l]? = some ts) : l < s.depth ∧ s.labelTypes l = ts := by
  have hlt : l < s.depth := by
    rw [← s.length_labels]
    exact (List.getElem?_eq_some_iff.mp h).1
  exact ⟨hlt, Option.some.inj ((State.getElem?_labels hlt).symm.trans h)⟩

/-- A branch through a table is accepted if its operands can be used at every label. -/
theorem exists_jumpTable {ls : List UInt32} {l : UInt32} {us vs ts stack : List ValueType}
    (hl : ∀ x ∈ ls ++ [l], ∃ label, (scope.context s.labels).labels[x.toNat]? = some label ∧
      AllBelow us label)
    (hts : List.Forall₂ Below ts (vs ++ us ++ [ValueType.i32]).reverse)
    (hd : s.top.Describes (ts ++ stack)) :
    s.step scope.results (.brTable (ls.map UInt32.toNat) l.toNat) =
      .ok (some { s with top := s.top.markUnreachable }) := by
  rw [List.reverse_append, List.reverse_append] at hts
  have hlabels : ∀ x ∈ ls ++ [l], List.Forall₂ Below us.reverse (s.labelTypes x.toNat).reverse := by
    intro x hx
    obtain ⟨label, hlabel, hb⟩ := hl x hx
    rw [(lt_depth_of_getElem?_labels hlabel).2]
    exact List.forall₂_reverse_iff.mpr hb
  cases hts with
  | @cons c _ ts _ hc hts =>
    -- the operands that are carried, without those below them
    obtain ⟨top, rest, rfl, htop⟩ : ∃ top rest, ts = top ++ rest ∧
        List.Forall₂ Below top us.reverse :=
      ⟨_, _, (List.take_append_drop us.reverse.length ts).symm,
        List.forall₂_take_append ts us.reverse vs.reverse hts⟩
    rw [List.cons_append, List.append_assoc] at hd
    obtain ⟨cond, mid, hy, hcond, hmid⟩ := Frame.describes_cons.mp hd
    have hall : ∀ x ∈ ls ++ [l], List.Forall₂ Below top (s.labelTypes x.toNat).reverse :=
      fun x hx => forall₂_below_trans htop (hlabels x hx)
    have hlast := hall l (List.mem_append_right _ (List.mem_singleton.mpr rfl))
    have harity : (s.labelTypes l.toNat).length = top.length := by
      rw [hlast.length_eq, List.length_reverse]
    have htargets : ∀ ts ∈ (ls.map UInt32.toNat).map s.labelTypes ++ [s.labelTypes l.toNat],
        List.Forall₂ Below top ts.reverse := by
      intro ts hts
      rcases List.mem_append.mp hts with hts | hts
      · obtain ⟨d, hd, rfl⟩ := List.mem_map.mp hts
        obtain ⟨x, hx, rfl⟩ := List.mem_map.mp hd
        exact hall x (List.mem_append_left _ hx)
      · rw [List.mem_singleton.mp hts]
        exact hlast
    obtain ⟨g, hg, hdg⟩ := exists_checkTargets hmid htargets
    obtain ⟨taken, rest', htakes, -⟩ := hdg.exists_takes hlast
    refine Except.map_eq_ok_iff.mpr ⟨_, State.jumpTable_eq_ok_iff.mpr ⟨cond, mid, g,
      ⟨hy, .cons (matchesType_of_below hcond hc) .nil⟩, ?_, ⟨taken, rest', htakes⟩, rfl⟩, rfl⟩
    rw [harity]
    exact hg

/-- The operands of `select`: two that may be of one type, and a condition. -/
theorem exists_select {taken us : List ValueType} {t : ValueType}
    (hm : List.Forall₂ MayBe taken us) (hu : List.Forall₂ Below us [.i32, t, t]) :
    ∃ cond second first, taken = [cond, second, first] ∧ matchesType .i32 cond = true ∧
      matchesType second first = true ∧ MayBe (if second = .bottom then first else second) t := by
  have hmay : ∀ {a b : ValueType}, MayBe a b → Below b t → MayBe a t := by
    intro a b ha hb
    rcases ha with rfl | rfl
    · exact .inl rfl
    · exact hb.symm
  obtain _ | ⟨hc, _ | ⟨hs, _ | ⟨hf, ⟨⟩⟩⟩⟩ := hu
  obtain _ | ⟨hmc, _ | ⟨hms, _ | ⟨hmf, ⟨⟩⟩⟩⟩ := hm
  have hsecond := hmay hms hs
  have hfirst := hmay hmf hf
  refine ⟨_, _, _, rfl, matchesType_of_below hmc hc, ?_, ?_⟩
  · rw [matchesType]
    rcases hsecond with rfl | rfl
    · simp
    · rcases hfirst with rfl | rfl <;> simp
  · split
    · exact hfirst
    · exact hsecond

/-- **An instruction that has a type is accepted.** -/
theorem exists_step_of_hasType {o : Op} {below ts ps rs : List ValueType}
    (hc : scope.space.Complete) (h : o.HasType (scope.context s.labels) ps rs)
    (hts : AllBelow ts ps) (hd : s.top.Describes (below ++ ts).reverse) :
    ∃ i s', o.resolve scope s.depth = some i ∧ s.step scope.results i = .ok (some s') ∧
      s'.top.Describes (below ++ rs).reverse := by
  rw [List.reverse_append] at hd ⊢
  have hts' : List.Forall₂ Below ts.reverse ps.reverse := List.forall₂_reverse_iff.mpr hts
  by_cases ho : o.isFixed = true
  · obtain ⟨i, hi, ht⟩ := exists_resolve_of_hasType hc h ho
    obtain ⟨taken, rest, htakes, -, hrest⟩ := hd.exists_takes hts'
    refine ⟨i, { s with top := s.top.withOperands (rs.reverse ++ rest) }, hi, ?_,
      hrest.push (forall₂_mayBe_refl _)⟩
    rw [State.step_of_type ht]
    exact Except.map_eq_ok_iff.mpr ⟨_, State.onTop_eq_ok_iff.mpr ⟨_,
      Frame.apply_eq_ok_iff.mpr ⟨taken, rest, htakes, rfl⟩, rfl⟩, rfl⟩
  · have hstop : (State.top { s with top := s.top.markUnreachable }).Describes
        (rs.reverse ++ below.reverse) := s.top.describes_markUnreachable _
    cases h with
    | unreachable ts us => exact ⟨.unreachable, _, rfl, rfl, hstop⟩
    | @br l label vs us hl =>
      obtain ⟨hlt, rfl⟩ := lt_depth_of_getElem?_labels hl
      rw [List.reverse_append] at hts'
      refine ⟨.br l.toNat, _, ?_, ?_, hstop⟩
      · rw [Op.resolve, label?_eq_some_iff.mpr ⟨rfl, hlt⟩]
        rfl
      · exact Except.map_eq_ok_iff.mpr ⟨_, State.jump_eq_ok_iff.mpr
          ⟨exists_takes_label hd hts', rfl⟩, rfl⟩
    | @brIf l label hl =>
      obtain ⟨hlt, rfl⟩ := lt_depth_of_getElem?_labels hl
      rw [List.reverse_append] at hts'
      obtain ⟨taken, rest, htakes, -, hrest⟩ := hd.exists_takes hts'
      refine ⟨.brIf l.toNat,
        { s with top := s.top.withOperands ((s.labelTypes l.toNat).reverse ++ rest) }, ?_, ?_,
        hrest.push (forall₂_mayBe_refl _)⟩
      · rw [Op.resolve, label?_eq_some_iff.mpr ⟨rfl, hlt⟩]
        rfl
      · exact Except.map_eq_ok_iff.mpr ⟨_, State.jumpIf_eq_ok_iff.mpr
          ⟨taken, rest, htakes, rfl⟩, rfl⟩
    | @brTable ls l vs us us' hl =>
      refine ⟨.brTable (ls.map UInt32.toNat) l.toNat, _, ?_, ?_, hstop⟩
      · have hlt : ∀ x ∈ ls ++ [l], x.toNat < s.depth := by
          intro x hx
          obtain ⟨label, hlabel, -⟩ := hl x hx
          exact (lt_depth_of_getElem?_labels hlabel).1
        obtain ⟨hls, hl'⟩ := List.forall_mem_append.mp hlt
        rw [Op.resolve, mapM_label?_eq_some_iff.mpr ⟨rfl, hls⟩,
          label?_eq_some_iff.mpr ⟨rfl, hl' l (List.mem_singleton.mpr rfl)⟩]
        rfl
      · exact exists_jumpTable hl hts' hd
    | ret vs us =>
      rw [List.reverse_append] at hts'
      exact ⟨.ret, _, rfl, Except.map_eq_ok_iff.mpr ⟨_, State.jump_eq_ok_iff.mpr
        ⟨exists_takes_label hd hts', rfl⟩, rfl⟩, hstop⟩
    | drop t =>
      obtain ⟨taken, rest, hy, hm, hrest⟩ := Frame.describes_append.mp hd
      have hlen : taken.length = 1 := by
        rw [hm.length_eq, List.length_reverse, hts.length_eq]
        rfl
      obtain ⟨t', rfl⟩ := List.length_eq_one_iff.mp hlen
      exact ⟨.drop, { s with top := s.top.withOperands rest }, rfl, Except.map_eq_ok_iff.mpr
        ⟨_, State.drop_eq_ok_iff.mpr ⟨t', rest, hy, rfl⟩, rfl⟩, hrest⟩
    | @select t hn =>
      obtain ⟨taken, rest, hy, hm, hrest⟩ := Frame.describes_append.mp hd
      obtain ⟨cond, second, first, rfl, hcond, hmatch, hmay⟩ := exists_select hm hts'
      refine ⟨.select, { s with
        top := s.top.withOperands ((if second = .bottom then first else second) :: rest) }, rfl, ?_,
        hrest.push (.cons hmay .nil)⟩
      exact Except.map_eq_ok_iff.mpr ⟨_, State.select_eq_ok_iff.mpr
        ⟨cond, second, first, rest, hy, hcond, hmatch, rfl⟩, rfl⟩
    | _ => exact absurd rfl ho

end FlatWasm.Source

namespace FlatWasm

open Source Typing

variable {scope : Scope} {x x₁ x₂ : Stage}

/-- Nothing is asked of the instructions that the walk comes by. -/
def Visit.any (_ : Visit) : Prop :=
  True

/-- What is accepted is lowered. -/
theorem Stage.exists_step {i : Instr} {frames : State} (hs : x.low.Sound)
    (h : x.frames.step scope.results i = .ok (some frames)) :
    ∃ low : Lowering.State, low.Sound ∧ x.Step scope Visit.any i ⟨frames, low⟩ := by
  obtain ⟨low, hlow, hgrows⟩ := hs.exists_step scope x.frames i
  exact ⟨low, hgrows.1, h, hlow, [], trivial⟩

/-- The walk goes into a frame if what the frame takes is described. -/
theorem Stage.exists_opens {i : Instr} {kind : FrameKind} {type : FuncType}
    (hi : i.opens? = some (kind, type)) (hs : x.low.Sound) {ts below : List ValueType}
    (hts : AllBelow ts (type.params ++ i.condition))
    (hd : x.frames.top.Describes (below ++ ts).reverse) :
    ∃ rest x₁, x.Step scope Visit.any i x₁ ∧ x₁.low.Sound ∧
      (x.frames.top.withOperands rest).Describes below.reverse ∧
      x₁.frames =
        { top :=
            { kind
              inputs := type.params
              outputs := type.results
              operands := type.params.reverse
              dead := x.frames.top.unreachable || x.frames.top.dead }
          below := x.frames.top.withOperands rest :: x.frames.below } := by
  have hcond : i.condition.reverse = i.condition := by
    cases i <;> rfl
  have hts' : List.Forall₂ Below ts.reverse (i.condition ++ type.params.reverse) := by
    rw [← hcond, ← List.reverse_append]
    exact List.forall₂_reverse_iff.mpr hts
  rw [List.reverse_append] at hd
  obtain ⟨taken, rest, htakes, -, hrest⟩ := hd.exists_takes hts'
  obtain ⟨low, hlow, hstep⟩ := Stage.exists_step hs
    ((State.step_opens_eq_ok_iff hi).mpr ⟨taken, rest, htakes, rfl⟩)
  exact ⟨rest, _, hstep, hlow, hrest, rfl⟩

/-- A frame that describes its outputs leaves them and nothing else. -/
theorem Typing.Frame.Describes.close {f : Frame} (h : f.Describes f.outputs.reverse) :
    ∃ taken, f.Takes f.outputs.reverse taken [] := by
  rw [← List.append_nil f.outputs.reverse] at h
  obtain ⟨taken, rest, ht, -, hrest⟩ := h.exists_takes (forall₂_below_refl _)
  rw [show rest = [] from Frame.describes_nil_iff.mp hrest] at ht
  exact ⟨taken, ht⟩

/-- The walk goes out of a frame if what the frame leaves is described. -/
theorem Stage.exists_closes {type : FuncType} {rest below : List ValueType} (hs : x₂.low.Sound)
    (hbelow : x₂.frames.below = x.frames.top.withOperands rest :: x.frames.below)
    (houtputs : x₂.frames.top.outputs = type.results)
    (hif : x₂.frames.top.kind = .ifThen → x₂.frames.top.inputs = x₂.frames.top.outputs)
    (hd : x₂.frames.top.Describes type.results.reverse)
    (hrest : (x.frames.top.withOperands rest).Describes below.reverse) :
    ∃ x₃, x₂.Step scope Visit.any .endMark x₃ ∧ x₃.low.Sound ∧
      x₃.frames.labels = x.frames.labels ∧
      x₃.frames.top.Describes (below ++ type.results).reverse := by
  rw [← houtputs] at hd
  have hleave : x₂.frames.step scope.results .endMark = .ok (some { x.frames with
      top := x.frames.top.withOperands (type.results.reverse ++ rest) }) := by
    refine State.leave_eq_ok_iff.mpr ⟨hif, hd.close, ?_⟩
    rw [hbelow, houtputs]
    rfl
  obtain ⟨low, hlow, hstep⟩ := Stage.exists_step hs hleave
  refine ⟨_, hstep, hlow, rfl, ?_⟩
  rw [List.reverse_append]
  exact hrest.push (forall₂_mayBe_refl _)

/-- The walk goes on to the second branch of an `if` if what the first leaves is described. -/
theorem Stage.exists_switches (hs : x₂.low.Sound) (hkind : x₂.frames.top.kind = .ifThen)
    (hd : x₂.frames.top.Describes x₂.frames.top.outputs.reverse) :
    ∃ x₃, x₂.Step scope Visit.any .elseMark x₃ ∧ x₃.low.Sound ∧
      x₃.frames = { x₂.frames with top :=
        { x₂.frames.top with
          kind := .ifElse
          unreachable := false
          operands := x₂.frames.top.inputs.reverse } } := by
  obtain ⟨low, hlow, hstep⟩ := Stage.exists_step hs (State.step_elseMark_eq_ok_iff.mpr
    ⟨_, State.switch_eq_ok_iff.mpr ⟨hkind, hd.close, rfl⟩, rfl⟩)
  exact ⟨_, hstep, hlow, rfl⟩

/-- **What has a derivation is accepted.** -/
theorem Source.Expr.HasType.exists_lowers {C : Context} {e : Expr} {ts us : List ValueType}
    (h : e.HasType C ts us) (hc : scope.space.Complete) (hC : C = scope.context x.frames.labels)
    (hs : x.low.Sound) (hd : x.frames.top.Describes ts.reverse) :
    ∃ y, Lowers scope Visit.any e x y ∧ y.low.Sound ∧ y.frames.top.Describes us.reverse := by
  induction h generalizing x with
  | done ts => exact ⟨x, .done x, hs, hd⟩
  | op ho hts hr ih =>
    rw [hC] at ho
    obtain ⟨i, frames, hi, hstep, hd'⟩ := exists_step_of_hasType hc ho hts hd
    obtain ⟨low, hlow, hstep⟩ := Stage.exists_step hs hstep
    obtain ⟨hbelow, hsame⟩ := hstep.same (isStructural_of_resolve hi)
    obtain ⟨y, hy, hsy, hdy⟩ := ih (by rw [hC, Stage.labels_eq hbelow hsame]) hlow hd'
    exact ⟨y, .op hi hstep hy, hsy, hdy⟩
  | @block C t type body rest below ts us ht hb hts hr ihb ihr =>
    rw [hC, blockType?_eq hc] at ht
    have hts' : AllBelow ts (type.params ++ (Instr.block type).condition) := by
      rw [show (Instr.block type).condition = [] from rfl, List.append_nil]
      exact hts
    obtain ⟨ops, x₁, hopen, hs₁, hops, h₁⟩ := Stage.exists_opens rfl hs hts' hd
    obtain ⟨x₂, hx₂, hs₂, hd₂⟩ := ihb (x := x₁) (by rw [hC, h₁]; rfl) hs₁
      (by rw [h₁]; exact Frame.describes_operands _)
    obtain ⟨hbelow, hsame⟩ := hx₂.same
    rw [h₁] at hbelow hsame
    obtain ⟨x₃, hclose, hs₃, hlabels, hd₃⟩ := Stage.exists_closes hs₂ hbelow hsame.outputs
      (by rw [hsame.kind]; nofun) hd₂ hops
    obtain ⟨y, hy, hsy, hdy⟩ := ihr (by rw [hC, hlabels]) hs₃ hd₃
    exact ⟨y, .block ht hopen hx₂ hclose hy, hsy, hdy⟩
  | @loop C t type body rest below ts us ht hb hts hr ihb ihr =>
    rw [hC, blockType?_eq hc] at ht
    have hts' : AllBelow ts (type.params ++ (Instr.loop type).condition) := by
      rw [show (Instr.loop type).condition = [] from rfl, List.append_nil]
      exact hts
    obtain ⟨ops, x₁, hopen, hs₁, hops, h₁⟩ := Stage.exists_opens rfl hs hts' hd
    obtain ⟨x₂, hx₂, hs₂, hd₂⟩ := ihb (x := x₁) (by rw [hC, h₁]; rfl) hs₁
      (by rw [h₁]; exact Frame.describes_operands _)
    obtain ⟨hbelow, hsame⟩ := hx₂.same
    rw [h₁] at hbelow hsame
    obtain ⟨x₃, hclose, hs₃, hlabels, hd₃⟩ := Stage.exists_closes hs₂ hbelow hsame.outputs
      (by rw [hsame.kind]; nofun) hd₂ hops
    obtain ⟨y, hy, hsy, hdy⟩ := ihr (by rw [hC, hlabels]) hs₃ hd₃
    exact ⟨y, .loop ht hopen hx₂ hclose hy, hsy, hdy⟩
  | @ifThen C t type body rest below ts us ht hb he hts hr ihb ihr =>
    rw [hC, blockType?_eq hc] at ht
    have hts' : AllBelow ts (type.params ++ (Instr.ifThen type).condition) := hts
    obtain ⟨ops, x₁, hopen, hs₁, hops, h₁⟩ := Stage.exists_opens rfl hs hts' hd
    obtain ⟨x₂, hx₂, hs₂, hd₂⟩ := ihb (x := x₁) (by rw [hC, h₁]; rfl) hs₁
      (by rw [h₁]; exact Frame.describes_operands _)
    obtain ⟨hbelow, hsame⟩ := hx₂.same
    rw [h₁] at hbelow hsame
    obtain ⟨x₃, hclose, hs₃, hlabels, hd₃⟩ := Stage.exists_closes hs₂ hbelow hsame.outputs
      (fun _ => by rw [hsame.inputs, hsame.outputs]; exact he) hd₂ hops
    obtain ⟨y, hy, hsy, hdy⟩ := ihr (by rw [hC, hlabels]) hs₃ hd₃
    exact ⟨y, .ifThen ht hopen hx₂ hclose hy, hsy, hdy⟩
  | @ifElse C t type body orElse rest below ts us ht hb he hts hr ihb ihe ihr =>
    rw [hC, blockType?_eq hc] at ht
    have hts' : AllBelow ts (type.params ++ (Instr.ifThen type).condition) := hts
    obtain ⟨ops, x₁, hopen, hs₁, hops, h₁⟩ := Stage.exists_opens rfl hs hts' hd
    obtain ⟨x₂, hx₂, hs₂, hd₂⟩ := ihb (x := x₁) (by rw [hC, h₁]; rfl) hs₁
      (by rw [h₁]; exact Frame.describes_operands _)
    obtain ⟨hbelow, hsame⟩ := hx₂.same
    rw [h₁] at hbelow hsame
    obtain ⟨x₃, hswitch, hs₃, h₃⟩ := Stage.exists_switches hs₂ hsame.kind
      (show x₂.frames.top.Describes x₂.frames.top.outputs.reverse by rw [hsame.outputs]; exact hd₂)
    have hlabels₃ : x₃.frames.labels = type.results :: x.frames.labels := by
      rw [h₃]
      show x₂.frames.top.outputs :: x₂.frames.below.map Frame.labelTypes = _
      rw [hbelow, hsame.outputs]
      rfl
    have hd₃ : x₃.frames.top.Describes type.params.reverse := by
      rw [← show x₂.frames.top.inputs = type.params from hsame.inputs, h₃]
      exact Frame.describes_operands _
    obtain ⟨x₄, hx₄, hs₄, hd₄⟩ := ihe (by rw [hC, hlabels₃]; rfl) hs₃ hd₃
    obtain ⟨hbelow', hsame'⟩ := hx₄.same
    rw [h₃] at hbelow' hsame'
    obtain ⟨x₅, hclose, hs₅, hlabels, hd₅⟩ := Stage.exists_closes hs₄ (hbelow'.trans hbelow)
      (hsame'.outputs.trans hsame.outputs) (by rw [hsame'.kind]; nofun) hd₄ hops
    obtain ⟨y, hy, hsy, hdy⟩ := ihr (by rw [hC, hlabels]) hs₅ hd₅
    exact ⟨y, .ifElse ht hopen hx₂ hswitch hx₄ hclose hy, hsy, hdy⟩

/-! ## Functions -/

namespace Function

variable {f : Function} {space : IndexSpace}

theorem context_eq (f : Function) (space : IndexSpace) :
    f.context space = (f.subject space).scope.context f.start.frames.labels := by
  have hlocals : (f.subject space).scope.locals.toList = f.type.params ++ f.locals.toList :=
    Locals.toList_prependAll _ _
  rw [Scope.context, hlocals]
  rfl

def deadTable : Function where
  index := 0
  type := ⟨[], [.i32]⟩
  locals := {}
  body := .raw [0x02, 0x7e, 0x00, 0x0e, 1, 0, 1, 0x0b, 0x1a, 0x41, 0, 0x0b]

/-- The same with constants in the place of the instruction that never returns. -/
def liveTable : Function :=
  { deadTable with
    body := .raw [0x02, 0x7e, 0x42, 0, 0x41, 0, 0x0e, 1, 0, 1, 0x0b, 0x1a, 0x41, 0, 0x0b] }

def deadTableModule : Module where
  types := [some deadTable.type]
  functions := [0]
  code := [⟨deadTable.locals, deadTable.body.bytes⟩]

def deadTableSpace : IndexSpace where
  types := [some deadTable.type]
  functions := { defined := [0] }

end Function

end FlatWasm
