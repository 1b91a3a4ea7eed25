import Mathlib
import FlatWasm.Proofs.TypeSystem.Operators
import FlatWasm.Proofs.TypeSystem.Stacks

/-!
# What the walk accepts has a derivation

The walk goes forward and a derivation has to pick stacks, so the derivation is found backward.  The statement that can
be proved by induction is not about the stack at the start of the code but about every stack at its end: whatever stack
is described after an expression, there is one that is described before it, and the expression leads from the one to
the other.  At the end of a frame the stack is what the frame leaves, and at its start only one stack is described.

In code that cannot run nothing is known of the stack before a branch, and it could even be of types that do not exist.
`IsOperand` keeps such types out: all operands that the walk ever knows are numeric or `bottom`.
-/

namespace FlatWasm.Typing

open Source

/-- A type that operands have. -/
def IsOperand (t : ValueType) : Prop :=
  t.isNumeric = true ∨ t = .bottom

def AllOperands (ts : List ValueType) : Prop :=
  ∀ t ∈ ts, IsOperand t

theorem AllOperands.of_allNumeric {ts : List ValueType} (h : AllNumeric ts) : AllOperands ts :=
  fun t ht => .inl (h t ht)

theorem AllOperands.append {ts us : List ValueType} (ht : AllOperands ts) (hu : AllOperands us) :
    AllOperands (ts ++ us) :=
  List.forall_mem_append.mpr ⟨ht, hu⟩

theorem AllOperands.left {ts us : List ValueType} (h : AllOperands (ts ++ us)) : AllOperands ts :=
  (List.forall_mem_append.mp h).1

theorem AllOperands.right {ts us : List ValueType} (h : AllOperands (ts ++ us)) : AllOperands us :=
  (List.forall_mem_append.mp h).2

theorem AllOperands.reverse {ts : List ValueType} (h : AllOperands ts) : AllOperands ts.reverse :=
  fun t ht => h t (List.mem_reverse.mp ht)

/-- What comes off a frame are operands if the frame has no others. -/
theorem Frame.Yields.allOperands {f : Frame} {taken rest : List ValueType} (h : f.Yields taken rest)
    (hf : AllOperands f.operands) : AllOperands (taken ++ rest) := by
  obtain ⟨pad, h, -⟩ := h
  rw [← h]
  refine hf.append fun t ht => .inr ?_
  exact List.eq_of_mem_replicate ht

/-- A frame of numeric types. -/
structure Frame.IsNumeric (f : Frame) : Prop where
  operands : AllOperands f.operands
  inputs : AllNumeric f.inputs
  outputs : AllNumeric f.outputs

theorem Frame.IsNumeric.withOperands {f : Frame} (h : f.IsNumeric) {ts : List ValueType}
    (ht : AllOperands ts) : (f.withOperands ts).IsNumeric :=
  ⟨ht, h.inputs, h.outputs⟩

theorem Frame.IsNumeric.labelTypes {f : Frame} (h : f.IsNumeric) : AllNumeric f.labelTypes := by
  rw [Frame.labelTypes]
  split
  · exact h.inputs
  · exact h.outputs

namespace State

variable {s : State}

/-- What a branch to each open frame carries, from the inside out. -/
def labels (s : State) : List (List ValueType) :=
  s.frames.map Frame.labelTypes

theorem length_labels (s : State) : s.labels.length = s.depth := by
  rw [labels, List.length_map]
  rfl

theorem getElem?_labels {l : ℕ} (h : l < s.depth) : s.labels[l]? = some (s.labelTypes l) := by
  rw [labelTypes, labels, List.getElem?_map]
  rw [← length_labels, labels, List.length_map] at h
  rw [List.getElem?_eq_getElem h]
  rfl

end State

end FlatWasm.Typing

namespace FlatWasm.Source

open Typing

variable {scope : Scope} {C : Context} {o : Op} {f g : Frame}

/-- Every stack that is described after an instruction comes, by a rule, from one that was described before it. -/
def Op.Accounts (C : Context) (o : Op) (f g : Frame) : Prop :=
  ∀ us, AllOperands us → g.Describes us.reverse → ∃ below ps rs, us = below ++ rs ∧
    o.HasType C ps rs ∧ AllOperands (below ++ ps) ∧ f.Describes (below ++ ps).reverse

/-- Below what has been pushed is a stack that was below what has been taken. -/
theorem exists_below {ps rs taken rest us : List ValueType} (hp : AllNumeric ps)
    (hr : AllNumeric rs) (h : f.Takes ps.reverse taken rest) (hus : AllOperands us)
    (hg : (f.withOperands (rs.reverse ++ rest)).Describes us.reverse) :
    ∃ below, us = below ++ rs ∧ AllOperands (below ++ ps) ∧ f.Describes (below ++ ps).reverse := by
  obtain ⟨below, hbelow, hrest⟩ := (Frame.describes_pushed hr.reverse.ne_bottom).mp hg
  have hus' : us = below.reverse ++ rs := by
    rw [← List.reverse_reverse us, hbelow, List.reverse_append, List.reverse_reverse]
  rw [hus'] at hus
  refine ⟨below.reverse, hus', hus.left.append (.of_allNumeric hp), ?_⟩
  rw [List.reverse_append, List.reverse_reverse]
  exact h.describes hp.reverse.ne_bottom hrest

/-- An instruction that takes operands of some types and pushes others. -/
theorem accounts_takes {ps rs taken rest : List ValueType} (ho : o.HasType C ps rs)
    (hp : AllNumeric ps) (hr : AllNumeric rs) (h : f.Takes ps.reverse taken rest) :
    o.Accounts C f (f.withOperands (rs.reverse ++ rest)) := by
  intro us hus hg
  obtain ⟨below, hus', hall, hf⟩ := exists_below hp hr h hus hg
  exact ⟨below, ps, rs, hus', ho, hall, hf⟩

/-- After an instruction that does not go on, any stack is described. -/
theorem accounts_markUnreachable {ps : List ValueType} (ho : ∀ us, o.HasType C ps us)
    (hps : AllOperands ps) (hf : f.Describes ps.reverse) : o.Accounts C f f.markUnreachable :=
  fun us _ _ => ⟨[], ps, us, rfl, ho us, hps, hf⟩

/-- A branch that carries `ts`. -/
theorem accounts_jump {ts taken rest : List ValueType} (ho : ∀ vs us, o.HasType C (vs ++ ts) us)
    (ht : AllNumeric ts) (hf : AllOperands f.operands) (h : f.Takes ts.reverse taken rest) :
    o.Accounts C f f.markUnreachable := by
  refine accounts_markUnreachable (ho rest.reverse) ?_ ?_
  · exact (h.1.allOperands hf).right.reverse.append (.of_allNumeric ht)
  · rw [List.reverse_append, List.reverse_reverse]
    exact h.describes ht.reverse.ne_bottom (Frame.describes_operands _)

theorem accounts_drop {t : ValueType} {rest : List ValueType} (hf : AllOperands f.operands)
    (h : f.Yields [t] rest) : Op.drop.Accounts C f (f.withOperands rest) := by
  intro us hus hg
  refine ⟨us, [t], [], (List.append_nil us).symm, .drop t,
    hus.append (h.allOperands hf).left, ?_⟩
  rw [List.reverse_append]
  exact Frame.describes_append.mpr ⟨[t], rest, h, forall₂_mayBe_refl _, hg⟩

theorem accounts_select {cond second first : ValueType} {rest : List ValueType}
    (h : f.Yields [cond, second, first] rest) (hc : matchesType .i32 cond = true)
    (hm : matchesType second first = true) : Op.select.Accounts C f
      (f.withOperands ((if second = .bottom then first else second) :: rest)) := by
  intro us hus hg
  obtain ⟨t, below, hus', ht, hrest⟩ : ∃ t below, us = below ++ [t] ∧
      MayBe (if second = .bottom then first else second) t ∧
        (f.withOperands rest).Describes below.reverse := by
    obtain ⟨known, unknown, heq, hk, hu⟩ := hg
    cases hk with
    | @cons _ t _ known ht hk =>
      refine ⟨t, (known ++ unknown).reverse, ?_, ht, known, unknown, List.reverse_reverse _, hk, hu⟩
      rw [← List.reverse_reverse us, heq, List.cons_append, List.reverse_cons]
  have hboth : MayBe second t ∧ MayBe first t := by
    by_cases hb : second = .bottom
    · rw [if_pos hb] at ht
      exact ⟨.inl hb, ht⟩
    · rw [if_neg hb] at ht
      obtain rfl : second = t := ht.resolve_left hb
      exact ⟨ht, mayBe_of_matchesType hm hb⟩
  have hi32 : AllOperands [.i32] := .of_allNumeric (allNumeric_singleton.mpr rfl)
  rw [hus'] at hus
  refine ⟨below, [t, t, .i32], [t], hus', .select (hus.right t (List.mem_singleton.mpr rfl)),
    hus.left.append (hus.right.append (hus.right.append hi32)), ?_⟩
  rw [List.reverse_append]
  exact Frame.describes_append.mpr ⟨_, rest, h, .cons (mayBe_of_matchesType hc (by decide))
    (.cons hboth.1 (.cons hboth.2 .nil)), hrest⟩

/-! ## Branches through a table -/

/-- Operands that are there are taken as they are. -/
theorem eq_of_yields_append {ts rest taken rest' : List ValueType}
    (h : (f.withOperands (ts ++ rest)).Yields taken rest') (hlen : taken.length = ts.length) :
    taken = ts := by
  obtain ⟨pad, h, -⟩ := h
  rw [Frame.withOperands_operands, List.append_assoc] at h
  exact (List.append_inj_left h hlen.symm).symm

/-- All targets of a table are matched by the same operands. -/
theorem exists_yields_of_checkTargets {arity : ℕ} {tss : List (List ValueType)} (hne : tss ≠ [])
    (h : State.checkTargets arity tss f = .ok g) :
    ∃ taken rest, f.Yields taken rest ∧ taken.length = arity ∧ ∀ ts ∈ tss,
      List.Forall₂ (fun expected actual => matchesType expected actual = true) ts.reverse taken := by
  induction tss generalizing f with
  | nil => exact absurd rfl hne
  | cons ts tss ih =>
    obtain ⟨hlen, taken, rest, ht, h'⟩ := State.checkTargets_cons_eq_ok_iff.mp h
    have hlen' : taken.length = arity := by
      rw [← ht.2.length_eq, List.length_reverse, hlen]
    refine ⟨taken, rest, ht.1, hlen', List.forall_mem_cons.mpr ⟨ht.2, ?_⟩⟩
    cases htss : tss with
    | nil => exact fun _ hts => by cases hts
    | cons us uss =>
      -- the operands have been put back
      rw [htss] at ih h'
      obtain ⟨taken', rest', hy, htaken, hall⟩ := ih (List.cons_ne_nil _ _) h'
      rw [eq_of_yields_append hy (htaken.trans hlen'.symm)] at hall
      exact hall

/-- A branch through a table. -/
theorem accounts_table {ls : List UInt32} {l : UInt32} {cond : ValueType}
    {mid taken rest : List ValueType} (hf : AllOperands f.operands) (hc : f.Takes [.i32] [cond] mid)
    (hy : (f.withOperands mid).Yields taken rest)
    (hl : ∀ x ∈ ls ++ [l], ∃ label, C.labels[x.toNat]? = some label ∧ AllNumeric label ∧
      List.Forall₂ (fun expected actual => matchesType expected actual = true) label.reverse
        taken) :
    (Op.brTable ls l).Accounts C f f.markUnreachable := by
  have hbelow : ∀ x ∈ ls ++ [l], ∃ label, C.labels[x.toNat]? = some label ∧
      AllBelow taken.reverse label := by
    intro x hx
    obtain ⟨label, hlabel, hn, hm⟩ := hl x hx
    refine ⟨label, hlabel, ?_⟩
    rw [AllBelow, ← List.forall₂_reverse_iff, List.reverse_reverse]
    refine (forall₂_mayBe hn.reverse.ne_bottom hm).imp fun t u h => ?_
    exact h.symm
  have hmid : AllOperands mid := (hc.1.allOperands hf).right
  have hall : AllOperands (taken ++ rest) :=
    Frame.Yields.allOperands hy hmid
  refine accounts_markUnreachable (fun us => .brTable rest.reverse taken.reverse us hbelow) ?_ ?_
  · exact (hall.right.reverse.append hall.left.reverse).append
      (.of_allNumeric (allNumeric_singleton.mpr rfl))
  · rw [List.reverse_append, List.reverse_append, List.reverse_reverse, List.reverse_reverse]
    refine hc.describes (by decide) (Frame.describes_append.mpr ⟨taken, rest, hy,
      forall₂_mayBe_refl taken, Frame.describes_operands _⟩)

/-! ## Instructions -/

theorem exists_type_of_isFixed {depth : ℕ} {i : Instr} (ho : o.isFixed = true)
    (hi : o.resolve scope depth = some i) : ∃ type, i.type? = some type := by
  cases o <;> try cases ho
  all_goals
    simp only [Op.resolve, Option.map_eq_some_iff, Option.bind_eq_bind, Option.bind_eq_some_iff,
      Option.pure_def, Option.some.injEq, Option.ite_none_right_eq_some] at hi
    grind [Instr.type?]

/-- **A step of the walk over an instruction without a body accounts for every stack after it.** -/
theorem accounts_step {s s' : State} {bs : List UInt8} {i : Instr} (hc : scope.space.Complete)
    (hC : (scope.context s.labels).IsNumeric) (hs : AllOperands s.top.operands) (he : o.Encoded bs)
    (hi : o.resolve scope s.depth = some i) (hstep : s.step scope.results i = .ok (some s')) :
    AllOperands s'.top.operands ∧ o.Accounts (scope.context s.labels) s.top s'.top := by
  by_cases ho : o.isFixed = true
  · obtain ⟨type, ht⟩ := exists_type_of_isFixed ho hi
    have hty : o.HasType (scope.context s.labels) type.params type.results :=
      hasType_of_resolve hc he hi ht
    obtain ⟨hp, hr⟩ := isNumeric_of_hasType hC he ho hty
    rw [State.step_of_type ht] at hstep
    obtain ⟨s₁, h₁, heq⟩ := Except.map_eq_ok_iff.mp hstep
    cases heq
    obtain ⟨top, ha, rfl⟩ := State.onTop_eq_ok_iff.mp h₁
    obtain ⟨taken, rest, htakes, rfl⟩ := Frame.apply_eq_ok_iff.mp ha
    exact ⟨(AllOperands.of_allNumeric hr.reverse).append (htakes.1.allOperands hs).right,
      accounts_takes hty hp hr htakes⟩
  · have hlabel : ∀ {d : ℕ}, d < s.depth →
        (scope.context s.labels).labels[d]? = some (s.labelTypes d) ∧
          AllNumeric (s.labelTypes d) := by
      intro d hd
      have hget := State.getElem?_labels hd
      exact ⟨hget, hC.labels _ (List.mem_of_getElem? hget)⟩
    cases o with
    | unreachable =>
      cases hi
      cases hstep
      have hdescribes : s.top.Describes s.top.operands.reverse.reverse := by
        rw [List.reverse_reverse]
        exact s.top.describes_operands
      exact ⟨nofun, accounts_markUnreachable (fun us => .unreachable _ us) hs.reverse hdescribes⟩
    | br l =>
      obtain ⟨d, hd, rfl⟩ := Option.map_eq_some_iff.mp hi
      obtain ⟨rfl, hlt⟩ := label?_eq_some_iff.mp hd
      obtain ⟨s₁, h₁, heq⟩ := Except.map_eq_ok_iff.mp hstep
      cases heq
      obtain ⟨⟨taken, rest, htakes⟩, rfl⟩ := State.jump_eq_ok_iff.mp h₁
      obtain ⟨hget, hn⟩ := hlabel hlt
      exact ⟨nofun, accounts_jump (fun vs us => .br vs us hget) hn hs htakes⟩
    | brIf l =>
      obtain ⟨d, hd, rfl⟩ := Option.map_eq_some_iff.mp hi
      obtain ⟨rfl, hlt⟩ := label?_eq_some_iff.mp hd
      obtain ⟨s₁, h₁, heq⟩ := Except.map_eq_ok_iff.mp hstep
      cases heq
      obtain ⟨taken, rest, htakes, rfl⟩ := State.jumpIf_eq_ok_iff.mp h₁
      obtain ⟨hget, hn⟩ := hlabel hlt
      have htakes' : s.top.Takes (s.labelTypes l.toNat ++ [ValueType.i32]).reverse taken rest := by
        rw [List.reverse_append]
        exact htakes
      exact ⟨(AllOperands.of_allNumeric hn.reverse).append (htakes.1.allOperands hs).right,
        accounts_takes (.brIf hget) (hn.append (allNumeric_singleton.mpr rfl)) hn htakes'⟩
    | brTable ls l =>
      obtain ⟨ds, hds, h'⟩ := Option.bind_eq_some_iff.mp hi
      obtain ⟨d, hd, h''⟩ := Option.bind_eq_some_iff.mp h'
      cases h''
      obtain ⟨rfl, hlt⟩ := label?_eq_some_iff.mp hd
      obtain ⟨rfl, hlts⟩ := mapM_label?_eq_some_iff.mp hds
      obtain ⟨s₁, h₁, heq⟩ := Except.map_eq_ok_iff.mp hstep
      cases heq
      obtain ⟨cond, mid, g, hcond, hcheck, -, rfl⟩ := State.jumpTable_eq_ok_iff.mp h₁
      obtain ⟨taken, rest, hy, -, hall⟩ :=
        exists_yields_of_checkTargets (List.append_ne_nil_of_right_ne_nil _ (List.cons_ne_nil _ _))
          hcheck
      refine ⟨nofun, accounts_table hs hcond hy fun x hx => ?_⟩
      have hxlt : x.toNat < s.depth := by
        rcases List.mem_append.mp hx with hx | hx
        · exact hlts x hx
        · rw [List.mem_singleton.mp hx]
          exact hlt
      obtain ⟨hget, hn⟩ := hlabel hxlt
      refine ⟨_, hget, hn, hall _ ?_⟩
      rcases List.mem_append.mp hx with hx | hx
      · exact List.mem_append_left _ (List.mem_map_of_mem (List.mem_map_of_mem hx))
      · rw [List.mem_singleton.mp hx]
        exact List.mem_append_right _ (List.mem_singleton.mpr rfl)
    | ret =>
      cases hi
      obtain ⟨s₁, h₁, heq⟩ := Except.map_eq_ok_iff.mp hstep
      cases heq
      obtain ⟨⟨taken, rest, htakes⟩, rfl⟩ := State.jump_eq_ok_iff.mp h₁
      exact ⟨nofun, accounts_jump (fun vs us => .ret vs us) hC.results hs htakes⟩
    | drop =>
      cases hi
      obtain ⟨s₁, h₁, heq⟩ := Except.map_eq_ok_iff.mp hstep
      cases heq
      obtain ⟨t, rest, hy, rfl⟩ := State.drop_eq_ok_iff.mp h₁
      exact ⟨(hy.allOperands hs).right, accounts_drop hs hy⟩
    | select =>
      cases hi
      obtain ⟨s₁, h₁, heq⟩ := Except.map_eq_ok_iff.mp hstep
      cases heq
      obtain ⟨cond, second, first, rest, hy, hcond, hm, rfl⟩ := State.select_eq_ok_iff.mp h₁
      refine ⟨?_, accounts_select hy hcond hm⟩
      have hall := hy.allOperands hs
      refine List.forall_mem_cons.mpr ⟨?_, hall.right⟩
      split
      · exact hall.left first (by simp)
      · exact hall.left second (by simp)
    | _ => exact absurd rfl ho

end FlatWasm.Source

namespace FlatWasm

open Source Typing

variable {scope : Scope} {P : Visit → Prop} {x x₁ x₂ x₃ y : Stage} {e : Expr}

/-- All open frames are of numeric types. -/
def Stage.IsNumeric (x : Stage) : Prop :=
  ∀ f ∈ x.frames.frames, f.IsNumeric

theorem Stage.IsNumeric.context (hx : x.IsNumeric) (hc : scope.space.Complete)
    (hl : AllNumeric scope.locals.toList) (hr : AllNumeric scope.results) :
    (scope.context x.frames.labels).IsNumeric := by
  refine isNumeric_context hc hl hr fun ts hts => ?_
  obtain ⟨f, hf, rfl⟩ := List.mem_map.mp hts
  exact (hx f hf).labelTypes

/-- A block type stands for a type of numeric types. -/
theorem Stage.IsNumeric.blockType (hx : x.IsNumeric) (hc : scope.space.Complete)
    (hl : AllNumeric scope.locals.toList) (hr : AllNumeric scope.results) {t : BlockType}
    {bs : List UInt8} (het : t.Encoded bs) {type : FuncType}
    (ht : t.resolve scope.space = some type) :
    (scope.context x.frames.labels).blockType? t = some type ∧ type.IsNumeric := by
  have hblock : (scope.context x.frames.labels).blockType? t = some type :=
    (blockType?_eq hc t).trans ht
  exact ⟨hblock, isNumeric_blockType (hx.context hc hl hr) het hblock⟩

theorem Typing.Frame.describes_of_close {f : Frame} (ho : AllNumeric f.outputs)
    (h : ∃ taken, f.Takes f.outputs.reverse taken []) : f.Describes f.outputs.reverse := by
  obtain ⟨taken, ht⟩ := h
  have hdesc := ht.describes ho.reverse.ne_bottom (Frame.describes_nil_iff.mpr rfl)
  rwa [List.append_nil] at hdesc

/-- A step within a frame. -/
theorem Stage.Step.isNumeric_of_same {i : Instr} (h : x.Step scope P i y)
    (hi : i.isStructural = false) (hx : x.IsNumeric)
    (hops : AllOperands y.frames.top.operands) : y.IsNumeric := by
  obtain ⟨hbelow, hsame⟩ := h.same hi
  obtain ⟨htop, hrest⟩ := List.forall_mem_cons.mp hx
  refine List.forall_mem_cons.mpr ⟨⟨hops, ?_, ?_⟩, ?_⟩
  · rw [hsame.inputs]
    exact htop.inputs
  · rw [hsame.outputs]
    exact htop.outputs
  · rw [hbelow]
    exact hrest

theorem Stage.labels_eq (hbelow : y.frames.below = x.frames.below)
    (hsame : x.frames.top.Same y.frames.top) : y.frames.labels = x.frames.labels := by
  rw [State.labels, State.labels, State.frames, State.frames, List.map_cons, List.map_cons, hbelow,
    hsame.labelTypes]

/-- A frame that an instruction opens, with `x` before the instruction, `x₁` at the start of the frame, `x₂` at its end and
`x₃` after it. -/
structure Encloses (i : Instr) (kind : FrameKind) (type : FuncType) (x x₁ x₂ x₃ : Stage) :
    Prop where
  inside : x₁.IsNumeric
  labels : x₁.frames.labels =
    Frame.labelTypes { kind, inputs := type.params, outputs := type.results } :: x.frames.labels
  /-- At the start the stack is what the frame takes. -/
  start {ts : List ValueType} (h : x₁.frames.top.Describes ts.reverse) : ts = type.params
  /-- At the end it is what the frame leaves. -/
  finish : x₂.frames.top.Describes type.results.reverse
  after : x₃.IsNumeric
  outer : x₃.frames.labels = x.frames.labels
  below {us : List ValueType} (hus : AllOperands us) (h : x₃.frames.top.Describes us.reverse) :
    ∃ below, us = below ++ type.results ∧ AllOperands (below ++ (type.params ++ i.condition)) ∧
      x.frames.top.Describes (below ++ (type.params ++ i.condition)).reverse

theorem Stage.Step.encloses {i : Instr} {kind : FrameKind} {type : FuncType}
    (h : x.Step scope P i x₁) (hi : i.opens? = some (kind, type)) (ht : type.IsNumeric)
    (hx : x.IsNumeric) (hbelow : x₂.frames.below = x₁.frames.below)
    (houtputs : x₂.frames.top.outputs = x₁.frames.top.outputs)
    (hend : x₂.Step scope P .endMark x₃) : Encloses i kind type x x₁ x₂ x₃ := by
  obtain ⟨htop, hrest⟩ := List.forall_mem_cons.mp hx
  obtain ⟨taken, rest, htakes, hn⟩ := (State.step_opens_eq_ok_iff hi).mp h.typed
  have h₁ := Option.some.inj hn
  have hcond : AllNumeric i.condition ∧ i.condition.reverse = i.condition := by
    cases i with
    | ifThen _ => exact ⟨allNumeric_singleton.mpr rfl, rfl⟩
    | _ => exact ⟨nofun, rfl⟩
  have hrest' : AllOperands rest := (htakes.1.allOperands htop.operands).right
  rw [h₁] at hbelow houtputs
  have h₃ : x₃.frames = { x.frames with
      top := x.frames.top.withOperands (type.results.reverse ++ rest) } := by
    rw [hend.closed hbelow, houtputs]
    rfl
  refine ⟨?_, ?_, fun hd => ?_, ?_, ?_, ?_, fun hus hd => ?_⟩
  · rw [Stage.IsNumeric, h₁]
    exact List.forall_mem_cons.mpr ⟨⟨.of_allNumeric ht.params.reverse, ht.params, ht.results⟩,
      List.forall_mem_cons.mpr ⟨htop.withOperands hrest', hrest⟩⟩
  · rw [h₁]
    rfl
  · rw [h₁] at hd
    exact List.reverse_injective (hd.eq_operands rfl ht.params.reverse.ne_bottom)
  · obtain ⟨-, hclose, -⟩ := State.leave_eq_ok_iff.mp hend.typed
    have hdesc := Frame.describes_of_close (by rw [houtputs]; exact ht.results) hclose
    rwa [houtputs] at hdesc
  · rw [Stage.IsNumeric, h₃]
    exact List.forall_mem_cons.mpr ⟨htop.withOperands
      ((AllOperands.of_allNumeric ht.results.reverse).append hrest'), hrest⟩
  · rw [h₃]
    rfl
  · rw [h₃] at hd
    have htakes' : x.frames.top.Takes (type.params ++ i.condition).reverse taken rest := by
      rw [List.reverse_append, hcond.2]
      exact htakes
    exact exists_below (ht.params.append hcond.1) ht.results htakes' hus hd

/-- Between the branches of an `if`, with `x₁` at the start of the first, `x₂` at its end and `x₃` at the start of the
second. -/
structure Divides (type : FuncType) (x₁ x₂ x₃ : Stage) : Prop where
  inside : x₃.IsNumeric
  labels : x₃.frames.labels = x₁.frames.labels
  start {ts : List ValueType} (h : x₃.frames.top.Describes ts.reverse) : ts = type.params
  finish : x₂.frames.top.Describes type.results.reverse

theorem Stage.Step.divides {type : FuncType} (h : x.Step scope P (.ifThen type) x₁)
    (hx : x₁.IsNumeric) (hbelow : x₂.frames.below = x₁.frames.below)
    (hsame : x₁.frames.top.Same x₂.frames.top) (hm : x₂.Step scope P .elseMark x₃) :
    Divides type x₁ x₂ x₃ := by
  obtain ⟨rest, h₁⟩ := h.opened rfl
  obtain ⟨s', hs, hn⟩ := State.step_elseMark_eq_ok_iff.mp hm.typed
  obtain ⟨hk, hclose, rfl⟩ := State.switch_eq_ok_iff.mp hs
  have h₃ := Option.some.inj hn
  obtain ⟨htop, hrest⟩ := List.forall_mem_cons.mp hx
  have hinputs : x₂.frames.top.inputs = type.params := by rw [hsame.inputs, h₁]
  have houtputs : x₂.frames.top.outputs = type.results := by rw [hsame.outputs, h₁]
  have hparams : AllNumeric type.params := by
    have := htop.inputs
    rwa [h₁] at this
  have hresults : AllNumeric type.results := by
    have := htop.outputs
    rwa [h₁] at this
  refine ⟨?_, ?_, fun hd => ?_, ?_⟩
  · rw [Stage.IsNumeric, ← h₃]
    refine List.forall_mem_cons.mpr ⟨⟨?_, ?_, ?_⟩, ?_⟩
    · exact .of_allNumeric (by rw [hinputs]; exact hparams.reverse)
    · rw [hinputs]
      exact hparams
    · rw [houtputs]
      exact hresults
    · rw [hbelow]
      exact hrest
  · rw [← h₃, State.labels, State.labels, State.frames, State.frames, List.map_cons, List.map_cons,
      hbelow, h₁]
    exact congrArg (· :: _) houtputs
  · rw [← h₃] at hd
    have heq := hd.eq_operands rfl (by rw [hinputs]; exact hparams.reverse.ne_bottom)
    rw [hinputs] at heq
    exact List.reverse_injective heq
  · have hdesc := Frame.describes_of_close (by rw [houtputs]; exact hresults) hclose
    rwa [houtputs] at hdesc

/-- **What the walk accepts has a derivation.** -/
theorem Lowers.exists_hasType (h : Lowers scope P e x y) (hc : scope.space.Complete)
    (hl : AllNumeric scope.locals.toList) (hr : AllNumeric scope.results) {bs : List UInt8}
    (he : e.Encoded bs) (hx : x.IsNumeric) {us : List ValueType} (hus : AllOperands us)
    (hy : y.frames.top.Describes us.reverse) :
    ∃ ts, AllOperands ts ∧ x.frames.top.Describes ts.reverse ∧
      e.HasType (scope.context x.frames.labels) ts us := by
  induction h generalizing bs us with
  | done x => exact ⟨us, hus, hy, .done us⟩
  | @op o rest i x x' y ho h hrest ih =>
    cases he with
    | op heo her =>
      have hi := isStructural_of_resolve ho
      obtain ⟨hops, hacc⟩ := accounts_step hc (hx.context hc hl hr)
        (hx _ List.mem_cons_self).operands heo ho h.typed
      obtain ⟨ts', hts', hd', hty⟩ := ih her (h.isNumeric_of_same hi hx hops) hus hy
      obtain ⟨below, ps, rs, rfl, hop, hall, hd⟩ := hacc ts' hts' hd'
      obtain ⟨hbelow, hsame⟩ := h.same hi
      rw [Stage.labels_eq hbelow hsame] at hty
      exact ⟨below ++ ps, hall, hd, .op hop (forall₂_below_refl ps) hty⟩
  | @block t body rest type x x₁ x₂ x₃ y ht h hb hend hrest ihb ihr =>
    cases he with
    | block het heb her =>
      obtain ⟨hblock, htype⟩ := hx.blockType hc hl hr het ht
      obtain ⟨hbelow, hsame⟩ := hb.same
      have hin := h.encloses rfl htype hx hbelow hsame.outputs hend
      obtain ⟨us', hus', hd', htyr⟩ := ihr her hin.after hus hy
      obtain ⟨below, rfl, hall, hd⟩ := hin.below hus' hd'
      obtain ⟨ts', -, hd₁, htyb⟩ := ihb heb hin.inside (.of_allNumeric htype.results) hin.finish
      rw [hin.outer] at htyr
      rw [hin.labels, hin.start hd₁] at htyb
      rw [show (Instr.block type).condition = [] from rfl, List.append_nil] at hall hd
      exact ⟨_, hall, hd, .block hblock htyb (forall₂_below_refl _) htyr⟩
  | @loop t body rest type x x₁ x₂ x₃ y ht h hb hend hrest ihb ihr =>
    cases he with
    | loop het heb her =>
      obtain ⟨hblock, htype⟩ := hx.blockType hc hl hr het ht
      obtain ⟨hbelow, hsame⟩ := hb.same
      have hin := h.encloses rfl htype hx hbelow hsame.outputs hend
      obtain ⟨us', hus', hd', htyr⟩ := ihr her hin.after hus hy
      obtain ⟨below, rfl, hall, hd⟩ := hin.below hus' hd'
      obtain ⟨ts', -, hd₁, htyb⟩ := ihb heb hin.inside (.of_allNumeric htype.results) hin.finish
      rw [hin.outer] at htyr
      rw [hin.labels, hin.start hd₁] at htyb
      rw [show (Instr.loop type).condition = [] from rfl, List.append_nil] at hall hd
      exact ⟨_, hall, hd, .loop hblock htyb (forall₂_below_refl _) htyr⟩
  | @ifThen t body rest type x x₁ x₂ x₃ y ht h hb hend hrest ihb ihr =>
    cases he with
    | ifThen het heb her =>
      obtain ⟨hblock, htype⟩ := hx.blockType hc hl hr het ht
      obtain ⟨hbelow, hsame⟩ := hb.same
      have hin := h.encloses rfl htype hx hbelow hsame.outputs hend
      obtain ⟨us', hus', hd', htyr⟩ := ihr her hin.after hus hy
      obtain ⟨below, rfl, hall, hd⟩ := hin.below hus' hd'
      obtain ⟨ts', -, hd₁, htyb⟩ := ihb heb hin.inside (.of_allNumeric htype.results) hin.finish
      rw [hin.outer] at htyr
      rw [hin.labels, hin.start hd₁] at htyb
      -- the frame is closed without a second branch
      have hequal : type.params = type.results := by
        obtain ⟨rest', h₁⟩ := h.opened rfl
        obtain ⟨hif, -, -⟩ := State.leave_eq_ok_iff.mp hend.typed
        rw [hsame.kind, hsame.inputs, hsame.outputs, h₁] at hif
        exact hif rfl
      exact ⟨_, hall, hd, .ifThen hblock htyb hequal (forall₂_below_refl _) htyr⟩
  | @ifElse t body orElse rest type x x₁ x₂ x₃ x₄ x₅ y ht h hb hm hb' hend hrest ihb ihe ihr =>
    cases he with
    | ifElse het heb hee her =>
      obtain ⟨hblock, htype⟩ := hx.blockType hc hl hr het ht
      obtain ⟨hbelow, hsame⟩ := hb.same
      obtain ⟨hbelow', hsame'⟩ := hb'.same
      have houtputs : x₃.frames.top.outputs = x₂.frames.top.outputs := by rw [hm.switched.2]
      have hin := h.encloses rfl htype hx (hbelow'.trans (hm.switched_below.trans hbelow))
        (hsame'.outputs.trans (houtputs.trans hsame.outputs)) hend
      have hdiv := h.divides hin.inside hbelow hsame hm
      obtain ⟨us', hus', hd', htyr⟩ := ihr her hin.after hus hy
      obtain ⟨below, rfl, hall, hd⟩ := hin.below hus' hd'
      obtain ⟨ts₁, -, hd₁, htyb⟩ := ihb heb hin.inside (.of_allNumeric htype.results) hdiv.finish
      obtain ⟨ts₃, -, hd₃, htye⟩ := ihe hee hdiv.inside (.of_allNumeric htype.results) hin.finish
      rw [hin.outer] at htyr
      rw [hin.labels, hin.start hd₁] at htyb
      rw [hdiv.labels, hin.labels, hdiv.start hd₃] at htye
      exact ⟨_, hall, hd, .ifElse hblock htyb htye (forall₂_below_refl _) htyr⟩

end FlatWasm
