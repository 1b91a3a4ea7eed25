import Mathlib
import FlatWasm.Function
import FlatWasm.Proofs.Source.Tokens
import FlatWasm.Proofs.Typing.Frames

/-!
# The pass over a body

`Subject.lower` walks over bytes.  What it does to a body is easier to say of the expression that the bytes spell: this
module puts `Lowers`, a relation that follows the nesting of an expression, in the place of the walk.

* `exists_lowers_of_lower`: where the walk succeeds over the bytes of an expression, the expression is lowered;
* `lower_of_lowers`: and the other way round;
* `exists_expr_of_lower`: where the walk succeeds at all, the bytes are those of an expression up to a mark.

## Why the relation carries a predicate

Statements about code ask which instruction emitted it, and statements about heights ask for a bound at every point
that the walk comes by.  `Subject.trail` lists the points, and `Lowers` takes a predicate that holds at all of them.  So
one relation serves for all purposes, and a purpose that asks for nothing takes the predicate that is always true.
-/

namespace FlatWasm

open Source

/-- Where the walk over a body has got to. -/
structure Stage where
  frames : Typing.State
  low : Lowering.State

/-- An instruction that the walk comes by, with the code after it. -/
structure Visit where
  /-- What is left of the body, from the instruction on. -/
  input : List UInt8
  before : Stage
  instr : Instr
  after : Lowering.State

namespace Subject

/-- The instructions that the walk comes by, up to the first that is refused. -/
def trail (subject : Subject) (x : Stage) (bytes : List UInt8) : List Visit :=
  match bytes with
  | [] => []
  | op :: bytes =>
    match _h : x.frames.accept subject.scope op bytes with
    | .error _ => []
    | .ok { instr, next, rest } =>
      match x.low.step subject.scope x.frames instr with
      | .error _ => []
      | .ok low =>
        ⟨op :: bytes, x, instr, low⟩ ::
          match next with
          | some frames => subject.trail ⟨frames, low⟩ rest
          | none => []
termination_by bytes.length
decreasing_by
  have : rest.length ≤ bytes.length := (Typing.State.suffix_of_accept _h).length_le
  simp only [List.length_cons]
  omega

variable {subject : Subject} {frames : Typing.State} {s : Lowering.State} {op : UInt8}
  {bytes rest : List UInt8} {code : Flat.Code}

theorem lower_nil : subject.lower frames s [] ≠ .ok code := by
  rw [lower]
  intro h
  cases h

theorem lower_cons_eq_ok_iff :
    subject.lower frames s (op :: bytes) = .ok code ↔
      ∃ a low, frames.accept subject.scope op bytes = .ok a ∧
        s.step subject.scope frames a.instr = .ok low ∧
        match a.next with
        | some frames => subject.lower frames low a.rest = .ok code
        | none => a.rest = [] ∧ low.code = code := by
  rw [lower]
  split
  · next e he =>
    rw [he]
    constructor
    · intro h
      cases h
    · rintro ⟨a, low, h, -⟩
      cases h
  · next instr next rest ha =>
    have hiff : ∀ {p : Accepted → Lowering.State → Prop},
        (∃ a low, frames.accept subject.scope op bytes = .ok a ∧
          s.step subject.scope frames a.instr = .ok low ∧ p a low) ↔
        ∃ low, s.step subject.scope frames instr = .ok low ∧ p ⟨instr, next, rest⟩ low := by
      intro p
      constructor
      · rintro ⟨a, low, h, hs, hp⟩
        cases ha.symm.trans h
        exact ⟨low, hs, hp⟩
      · rintro ⟨low, hs, hp⟩
        exact ⟨_, low, ha, hs, hp⟩
    rw [hiff]
    cases hs : s.step subject.scope frames instr with
    | error d =>
      constructor
      · intro h
        cases h
      · rintro ⟨low, h, -⟩
        cases h
    | ok low =>
      simp only [Except.ok.injEq, exists_eq_left']
      cases next with
      | some frames => rfl
      | none =>
        cases rest with
        | nil => simp
        | cons op rest => simp

/-- An instruction that is accepted comes first, and then what the walk comes by after it. -/
theorem trail_cons {x : Stage} {a : Accepted} {low : Lowering.State}
    (ha : x.frames.accept subject.scope op bytes = .ok a)
    (hs : x.low.step subject.scope x.frames a.instr = .ok low) :
    subject.trail x (op :: bytes) = ⟨op :: bytes, x, a.instr, low⟩ ::
      match a.next with
      | some frames => subject.trail ⟨frames, low⟩ a.rest
      | none => [] := by
  rw [trail]
  split
  · next e he =>
    rw [he] at ha
    cases ha
  · next instr next rest ha' =>
    rw [ha'] at ha
    cases ha
    rw [hs]
    cases next <;> rfl

end Subject

/-- A token is accepted if it resolves and its operands are right. -/
theorem Typing.State.accept_eq_ok_iff {s : Typing.State} {scope : Scope} {t : Token} {op : UInt8}
    {bs rest : List UInt8} {a : Accepted} (h : t.Encoded (op :: bs)) :
    s.accept scope op (bs ++ rest) = .ok a ↔
      t.resolve scope s.depth = some a.instr ∧ s.step scope.results a.instr = .ok a.next ∧
        a.rest = rest := by
  have hread : Reader.answer (Instr.read scope s.depth op) (bs ++ rest) = _ :=
    Instr.answer_read h rest
  rw [accept]
  cases hr : Instr.read scope s.depth op (bs ++ rest) with
  | error e =>
    have hnone : t.resolve scope s.depth = none := by
      rw [Reader.answer, hr] at hread
      exact Option.map_eq_none_iff.mp hread.symm
    rw [hnone]
    constructor
    · intro h
      cases h
    · rintro ⟨h, -⟩
      cases h
  | ok p =>
    obtain ⟨instr, rest'⟩ := p
    obtain ⟨hi, rfl⟩ : t.resolve scope s.depth = some instr ∧ rest' = rest := by
      rw [Reader.answer, hr] at hread
      obtain ⟨i, hi, he⟩ := Option.map_eq_some_iff.mp hread.symm
      cases he
      exact ⟨hi, rfl⟩
    rw [hi]
    dsimp only
    cases hs : s.step scope.results instr with
    | error cause =>
      constructor
      · intro h
        cases h
      · rintro ⟨h, hstep, -⟩
        cases h
        rw [hs] at hstep
        cases hstep
    | ok next =>
      constructor
      · intro h
        cases h
        exact ⟨rfl, hs, rfl⟩
      · rintro ⟨h, hstep, h'⟩
        cases h
        rw [hs] at hstep
        cases hstep
        cases a
        cases h'
        rfl

/-- What is accepted has operands that are right. -/
theorem Typing.State.step_of_accept {s : Typing.State} {scope : Scope} {op : UInt8}
    {bytes : List UInt8} {a : Accepted} (h : s.accept scope op bytes = .ok a) :
    s.step scope.results a.instr = .ok a.next := by
  rw [accept] at h
  split at h
  · cases h
  · split at h
    · cases h
    · next hs =>
      cases h
      exact hs

/-- What is accepted is a token, that resolves and whose operands are right. -/
theorem Typing.State.exists_token_of_accept {s : Typing.State} {scope : Scope} {op : UInt8}
    {bytes : List UInt8} {a : Accepted} (h : s.accept scope op bytes = .ok a) :
    ∃ (t : Token) (bs : List UInt8), t.Encoded (op :: bs) ∧ bytes = bs ++ a.rest ∧
      t.resolve scope s.depth = some a.instr ∧ s.step scope.results a.instr = .ok a.next := by
  obtain ⟨t, bs, ht, rfl⟩ : ∃ (t : Token) (bs : List UInt8),
      t.Encoded (op :: bs) ∧ bytes = bs ++ a.rest := by
    rw [accept] at h
    split at h
    · cases h
    next instr rest hr =>
      split at h
      · cases h
      · cases h
        exact Instr.exists_token_of_read hr
  obtain ⟨hi, hs, -⟩ := (accept_eq_ok_iff ht).mp h
  exact ⟨t, bs, ht, rfl, hi, hs⟩

/-! ## The relation -/

/-- The labels that an instruction names. -/
def Instr.labels : Instr → List ℕ
  | .br label | .brIf label => [label]
  | .brTable labels fallback => labels ++ [fallback]
  | _ => []

/-- The local that an instruction names. -/
def Instr.local? : Instr → Option UInt32
  | .localGet x _ | .localSet x _ | .localTee x _ => some x
  | _ => none

namespace Source

theorem isStructural_of_resolve {scope : Scope} {depth : ℕ} {o : Op} {i : Instr}
    (h : o.resolve scope depth = some i) : i.isStructural = false := by
  cases o <;>
    simp only [Op.resolve, Option.map_eq_some_iff, Option.bind_eq_bind, Option.bind_eq_some_iff,
      Option.pure_def, Option.some.injEq, Option.ite_none_right_eq_some] at h
  all_goals grind [Instr.isStructural]

theorem label?_eq_some_iff {depth d : ℕ} {l : UInt32} :
    label? depth l = some d ↔ d = l.toNat ∧ l.toNat < depth := by
  rw [label?]
  split <;> simp_all [eq_comm]

theorem mapM_label?_eq_some_iff {depth : ℕ} {ls : List UInt32} {ds : List ℕ} :
    ls.mapM (label? depth) = some ds ↔ ds = ls.map UInt32.toNat ∧ ∀ l ∈ ls, l.toNat < depth := by
  induction ls generalizing ds with
  | nil => simp [eq_comm]
  | cons l ls ih =>
    rw [List.mapM_cons, List.map_cons, List.forall_mem_cons]
    constructor
    · intro h
      obtain ⟨d, hd, h'⟩ := Option.bind_eq_some_iff.mp h
      obtain ⟨ds', hds, h''⟩ := Option.bind_eq_some_iff.mp h'
      cases h''
      obtain ⟨rfl, hlt⟩ := label?_eq_some_iff.mp hd
      obtain ⟨rfl, hlts⟩ := ih.mp hds
      exact ⟨rfl, hlt, hlts⟩
    · rintro ⟨rfl, hlt, hlts⟩
      rw [label?_eq_some_iff.mpr ⟨rfl, hlt⟩, ih.mpr ⟨rfl, hlts⟩]
      rfl

/-- The labels of a branch are those of open frames. -/
theorem label_lt_of_resolve {scope : Scope} {depth : ℕ} {o : Op} {i : Instr}
    (h : o.resolve scope depth = some i) : ∀ d ∈ i.labels, d < depth := by
  cases o with
  | br l =>
    obtain ⟨d, hd, rfl⟩ := Option.map_eq_some_iff.mp h
    obtain ⟨rfl, hlt⟩ := label?_eq_some_iff.mp hd
    simpa [Instr.labels] using hlt
  | brIf l =>
    obtain ⟨d, hd, rfl⟩ := Option.map_eq_some_iff.mp h
    obtain ⟨rfl, hlt⟩ := label?_eq_some_iff.mp hd
    simpa [Instr.labels] using hlt
  | brTable ls l =>
    obtain ⟨ds, hds, h'⟩ := Option.bind_eq_some_iff.mp h
    obtain ⟨d, hd, h''⟩ := Option.bind_eq_some_iff.mp h'
    cases h''
    obtain ⟨rfl, hlts⟩ := mapM_label?_eq_some_iff.mp hds
    obtain ⟨rfl, hlt⟩ := label?_eq_some_iff.mp hd
    simpa [Instr.labels, or_imp, forall_and] using ⟨hlts, hlt⟩
  | _ =>
    simp only [Op.resolve, Option.map_eq_some_iff, Option.bind_eq_bind, Option.bind_eq_some_iff,
      Option.pure_def, Option.some.injEq, Option.ite_none_right_eq_some] at h
    grind [Instr.labels]

/-- A local that is named exists. -/
theorem local_lt_of_resolve {scope : Scope} {depth : ℕ} {o : Op} {i : Instr}
    (h : o.resolve scope depth = some i) :
    ∀ x, i.local? = some x → x.toNat < scope.locals.length := by
  have hlt : ∀ {x : UInt32} {t : ValueType}, scope.locals.get? x.toNat = some t →
      x.toNat < scope.locals.length := by
    intro x t hx
    rw [Locals.get?_eq_getElem?] at hx
    rw [Locals.length_eq]
    exact (List.getElem?_eq_some_iff.mp hx).1
  cases o with
  | localGet x =>
    obtain ⟨t, ht, rfl⟩ := Option.map_eq_some_iff.mp h
    intro y hy
    cases hy
    exact hlt ht
  | localSet x =>
    obtain ⟨t, ht, rfl⟩ := Option.map_eq_some_iff.mp h
    intro y hy
    cases hy
    exact hlt ht
  | localTee x =>
    obtain ⟨t, ht, rfl⟩ := Option.map_eq_some_iff.mp h
    intro y hy
    cases hy
    exact hlt ht
  | _ =>
    simp only [Op.resolve, Option.map_eq_some_iff, Option.bind_eq_bind, Option.bind_eq_some_iff,
      Option.pure_def, Option.some.injEq, Option.ite_none_right_eq_some] at h
    grind [Instr.local?]

/-- A token starts with a byte. -/
theorem Token.Encoded.exists_cons {t : Token} {bytes : List UInt8} (h : t.Encoded bytes) :
    ∃ op bs, bytes = op :: bs := by
  cases h with
  | op h => cases h <;> exact ⟨_, _, rfl⟩
  | _ => exact ⟨_, _, rfl⟩

end Source

/-- An instruction leads from one stage to the next, and `P` holds of it. -/
structure Stage.Step (scope : Scope) (P : Visit → Prop) (x : Stage) (i : Instr) (y : Stage) :
    Prop where
  typed : x.frames.step scope.results i = .ok (some y.frames)
  lowered : x.low.step scope x.frames i = .ok y.low
  holds : ∃ input, P ⟨input, x, i, y.low⟩

/-- An expression leads from one stage to another. -/
inductive Lowers (scope : Scope) (P : Visit → Prop) : Expr → Stage → Stage → Prop where
  | done (x : Stage) : Lowers scope P .done x x
  | op {o : Op} {rest : Expr} {i : Instr} {x x' y : Stage}
      (ho : o.resolve scope x.frames.depth = some i) (h : x.Step scope P i x')
      (hr : Lowers scope P rest x' y) : Lowers scope P (.op o rest) x y
  | block {t : BlockType} {body rest : Expr} {type : FuncType} {x x₁ x₂ x₃ y : Stage}
      (ht : t.resolve scope.space = some type) (h : x.Step scope P (.block type) x₁)
      (hb : Lowers scope P body x₁ x₂) (he : x₂.Step scope P .endMark x₃)
      (hr : Lowers scope P rest x₃ y) : Lowers scope P (.block t body rest) x y
  | loop {t : BlockType} {body rest : Expr} {type : FuncType} {x x₁ x₂ x₃ y : Stage}
      (ht : t.resolve scope.space = some type) (h : x.Step scope P (.loop type) x₁)
      (hb : Lowers scope P body x₁ x₂) (he : x₂.Step scope P .endMark x₃)
      (hr : Lowers scope P rest x₃ y) : Lowers scope P (.loop t body rest) x y
  | ifThen {t : BlockType} {body rest : Expr} {type : FuncType} {x x₁ x₂ x₃ y : Stage}
      (ht : t.resolve scope.space = some type) (h : x.Step scope P (.ifThen type) x₁)
      (hb : Lowers scope P body x₁ x₂) (he : x₂.Step scope P .endMark x₃)
      (hr : Lowers scope P rest x₃ y) : Lowers scope P (.ifThen t body rest) x y
  | ifElse {t : BlockType} {body orElse rest : Expr} {type : FuncType} {x x₁ x₂ x₃ x₄ x₅ y : Stage}
      (ht : t.resolve scope.space = some type) (h : x.Step scope P (.ifThen type) x₁)
      (hb : Lowers scope P body x₁ x₂) (hm : x₂.Step scope P .elseMark x₃)
      (hb' : Lowers scope P orElse x₃ x₄) (he : x₄.Step scope P .endMark x₅)
      (hr : Lowers scope P rest x₅ y) : Lowers scope P (.ifElse t body orElse rest) x y

variable {scope : Scope} {P : Visit → Prop}

namespace Stage.Step

variable {x y z : Stage} {i : Instr}

theorem mono {Q : Visit → Prop} (h : x.Step scope P i y) (hPQ : ∀ v, P v → Q v) :
    x.Step scope Q i y :=
  ⟨h.typed, h.lowered, h.holds.imp fun _ => hPQ _⟩

theorem same (h : x.Step scope P i y) (hi : i.isStructural = false) :
    y.frames.below = x.frames.below ∧ x.frames.top.Same y.frames.top := by
  obtain ⟨top, hn, hs⟩ := Typing.State.step_same hi h.typed
  cases hy : y.frames
  rw [hy] at hn
  cases hn
  exact ⟨rfl, hs⟩

theorem opened (h : x.Step scope P i y) {kind : Typing.FrameKind} {type : FuncType}
    (hi : i.opens? = some (kind, type)) : ∃ rest, y.frames =
      { top :=
          { kind
            inputs := type.params
            outputs := type.results
            operands := type.params.reverse
            dead := x.frames.top.unreachable || x.frames.top.dead }
        below := x.frames.top.withOperands rest :: x.frames.below } := by
  obtain ⟨rest, hn⟩ := Typing.State.step_opens hi h.typed
  exact ⟨rest, Option.some.inj hn⟩

/-- The end of a frame leads back to the frame around it. -/
theorem closed (h : y.Step scope P .endMark z) {parent : Typing.Frame} {below : List Typing.Frame}
    (hb : y.frames.below = parent :: below) :
    z.frames = { top := parent.pushAll y.frames.top.outputs, below } := by
  obtain ⟨-, -, hn⟩ := Typing.State.leave_eq_ok_iff.mp h.typed
  rw [hb] at hn
  exact Option.some.inj hn

theorem switched (h : y.Step scope P .elseMark z) : y.frames.top.kind = .ifThen ∧
    z.frames = { y.frames with top :=
      { y.frames.top with
        kind := .ifElse, unreachable := false, operands := y.frames.top.inputs.reverse } } := by
  obtain ⟨s', hs, hn⟩ := Typing.State.step_elseMark_eq_ok_iff.mp h.typed
  obtain ⟨hk, -, rfl⟩ := Typing.State.switch_eq_ok_iff.mp hs
  exact ⟨hk, (Option.some.inj hn).symm⟩

theorem switched_below (h : y.Step scope P .elseMark z) : z.frames.below = y.frames.below := by
  rw [h.switched.2]

theorem switched_dead (h : y.Step scope P .elseMark z) :
    z.frames.top.dead = y.frames.top.dead := by
  rw [h.switched.2]

/-- A frame that has been opened and closed leaves what was around it. -/
theorem around {x₁ x₂ x₃ : Stage} {kind : Typing.FrameKind} {type : FuncType}
    (h : x.Step scope P i x₁) (hi : i.opens? = some (kind, type))
    (hb : x₂.frames.below = x₁.frames.below) (he : x₂.Step scope P .endMark x₃) :
    x₃.frames.below = x.frames.below ∧ x.frames.top.Same x₃.frames.top := by
  obtain ⟨rest, h₁⟩ := h.opened hi
  rw [h₁] at hb
  rw [he.closed hb]
  exact ⟨rfl, rfl, rfl, rfl, rfl, id⟩

end Stage.Step

theorem Lowers.mono {Q : Visit → Prop} {e : Expr} {x y : Stage} (h : Lowers scope P e x y)
    (hPQ : ∀ v, P v → Q v) : Lowers scope Q e x y := by
  induction h with
  | done x => exact .done x
  | op ho h _ ih => exact .op ho (h.mono hPQ) ih
  | block ht h _ he _ ihb ihr => exact .block ht (h.mono hPQ) ihb (he.mono hPQ) ihr
  | loop ht h _ he _ ihb ihr => exact .loop ht (h.mono hPQ) ihb (he.mono hPQ) ihr
  | ifThen ht h _ he _ ihb ihr => exact .ifThen ht (h.mono hPQ) ihb (he.mono hPQ) ihr
  | ifElse ht h _ hm _ he _ ihb ihe ihr =>
    exact .ifElse ht (h.mono hPQ) ihb (hm.mono hPQ) ihe (he.mono hPQ) ihr

/-- An expression stays in its frame. -/
theorem Lowers.same {e : Expr} {x y : Stage} (h : Lowers scope P e x y) :
    y.frames.below = x.frames.below ∧ x.frames.top.Same y.frames.top := by
  induction h with
  | done x => exact ⟨rfl, .refl _⟩
  | op ho h hr ih =>
    obtain ⟨hb, hs⟩ := h.same (isStructural_of_resolve ho)
    exact ⟨ih.1.trans hb, hs.trans ih.2⟩
  | block ht h hb he hr ihb ihr =>
    obtain ⟨h₁, h₂⟩ := h.around rfl ihb.1 he
    exact ⟨ihr.1.trans h₁, h₂.trans ihr.2⟩
  | loop ht h hb he hr ihb ihr =>
    obtain ⟨h₁, h₂⟩ := h.around rfl ihb.1 he
    exact ⟨ihr.1.trans h₁, h₂.trans ihr.2⟩
  | ifThen ht h hb he hr ihb ihr =>
    obtain ⟨h₁, h₂⟩ := h.around rfl ihb.1 he
    exact ⟨ihr.1.trans h₁, h₂.trans ihr.2⟩
  | ifElse ht h hb hm hb' he hr ihb ihe ihr =>
    have h₃ := hm.switched.2
    have hbelow := ihe.1
    rw [h₃] at hbelow
    obtain ⟨h₁, h₂⟩ := h.around rfl (hbelow.trans ihb.1) he
    exact ⟨ihr.1.trans h₁, h₂.trans ihr.2⟩

/-- In a frame that an instruction has opened, other frames are below. -/
theorem Lowers.below_ne_nil {e : Expr} {x x₁ x₂ : Stage} {i : Instr} {kind : Typing.FrameKind}
    {type : FuncType} (hb : Lowers scope P e x₁ x₂) (h : x.Step scope P i x₁)
    (hi : i.opens? = some (kind, type)) : x₂.frames.below ≠ [] := by
  obtain ⟨rest, h₁⟩ := h.opened hi
  rw [hb.same.1, h₁]
  exact List.cons_ne_nil _ _

/-! ## Between bytes and expressions -/

namespace Subject

variable {subject : Subject} {x : Stage} {t : Token} {bs rest : List UInt8} {code : Flat.Code}

/-- The walk over a token: it resolves, it is typed and lowered, and the walk goes on. -/
theorem step_of_lower (ht : t.Encoded bs)
    (hl : subject.lower x.frames x.low (bs ++ rest) = .ok code)
    (hP : ∀ v ∈ subject.trail x (bs ++ rest), P v) :
    ∃ i next low, t.resolve subject.scope x.frames.depth = some i ∧
      x.frames.step subject.scope.results i = .ok next ∧
      x.low.step subject.scope x.frames i = .ok low ∧ P ⟨bs ++ rest, x, i, low⟩ ∧
      match next with
      | some frames => subject.lower frames low rest = .ok code ∧
          ∀ v ∈ subject.trail ⟨frames, low⟩ rest, P v
      | none => rest = [] ∧ low.code = code := by
  obtain ⟨op, bs, rfl⟩ := ht.exists_cons
  rw [List.cons_append] at hl hP
  obtain ⟨a, low, ha, hs, hnext⟩ := lower_cons_eq_ok_iff.mp hl
  rw [trail_cons ha hs] at hP
  obtain ⟨hi, hstep, hrest⟩ := (Typing.State.accept_eq_ok_iff ht).mp ha
  obtain ⟨instr, next, rest'⟩ := a
  obtain rfl : rest' = rest := hrest
  refine ⟨instr, next, low, hi, hstep, hs, hP _ List.mem_cons_self, ?_⟩
  cases next with
  | none => exact hnext
  | some frames => exact ⟨hnext, fun v hv => hP v (List.mem_cons_of_mem _ hv)⟩

/-- The same where the token does not end the function. -/
theorem exists_step_of_lower (ht : t.Encoded bs)
    (hl : subject.lower x.frames x.low (bs ++ rest) = .ok code)
    (hP : ∀ v ∈ subject.trail x (bs ++ rest), P v)
    (hend : t = .endMark → x.frames.below ≠ []) :
    ∃ i y, t.resolve subject.scope x.frames.depth = some i ∧ x.Step subject.scope P i y ∧
      subject.lower y.frames y.low rest = .ok code ∧ ∀ v ∈ subject.trail y rest, P v := by
  obtain ⟨i, next, low, hi, hstep, hs, hp, hnext⟩ := step_of_lower ht hl hP
  cases next with
  | some frames => exact ⟨i, ⟨frames, low⟩, hi, ⟨hstep, hs, _, hp⟩, hnext⟩
  | none =>
    exfalso
    cases t with
    | op o =>
      obtain ⟨top, h, -⟩ := Typing.State.step_same (isStructural_of_resolve hi) hstep
      cases h
    | block t =>
      obtain ⟨type, -, rfl⟩ := Option.map_eq_some_iff.mp hi
      obtain ⟨_, h⟩ := Typing.State.step_opens rfl hstep
      cases h
    | loop t =>
      obtain ⟨type, -, rfl⟩ := Option.map_eq_some_iff.mp hi
      obtain ⟨_, h⟩ := Typing.State.step_opens rfl hstep
      cases h
    | ifThen t =>
      obtain ⟨type, -, rfl⟩ := Option.map_eq_some_iff.mp hi
      obtain ⟨_, h⟩ := Typing.State.step_opens rfl hstep
      cases h
    | elseMark =>
      cases hi
      obtain ⟨_, -, h⟩ := Typing.State.step_elseMark_eq_ok_iff.mp hstep
      cases h
    | endMark =>
      cases hi
      obtain ⟨-, -, h⟩ := Typing.State.leave_eq_ok_iff.mp hstep
      obtain ⟨parent, below, hb⟩ := List.exists_cons_of_ne_nil (hend rfl)
      rw [hb] at h
      cases h

theorem lower_of_step {i : Instr} {y : Stage} (ht : t.Encoded bs)
    (hi : t.resolve subject.scope x.frames.depth = some i) (h : x.Step subject.scope P i y)
    (hl : subject.lower y.frames y.low rest = .ok code) :
    subject.lower x.frames x.low (bs ++ rest) = .ok code := by
  obtain ⟨op, bs, rfl⟩ := ht.exists_cons
  rw [List.cons_append]
  exact lower_cons_eq_ok_iff.mpr ⟨⟨i, some y.frames, rest⟩, y.low,
    (Typing.State.accept_eq_ok_iff ht).mpr ⟨hi, h.typed, rfl⟩, h.lowered, hl⟩

/-- **Where the walk succeeds over the bytes of an expression, the expression is lowered.** -/
theorem exists_lowers_of_lower {e : Expr} (he : e.Encoded bs)
    (hl : subject.lower x.frames x.low (bs ++ rest) = .ok code)
    (hP : ∀ v ∈ subject.trail x (bs ++ rest), P v) :
    ∃ y, Lowers subject.scope P e x y ∧ subject.lower y.frames y.low rest = .ok code ∧
      ∀ v ∈ subject.trail y rest, P v := by
  induction he generalizing x rest with
  | done => exact ⟨x, .done x, hl, hP⟩
  | @op o e bs rs ho hr ih =>
    rw [List.append_assoc] at hl hP
    obtain ⟨i, x', hi, h, hl', hP'⟩ :=
      exists_step_of_lower (.op ho) hl hP (by intro h; cases h)
    obtain ⟨y, hy, hly, hPy⟩ := ih hl' hP'
    exact ⟨y, .op hi h hy, hly, hPy⟩
  | @block t body e ts bs rs ht hb hr ihb ihr =>
    rw [List.cons_append, List.append_assoc, List.append_assoc, List.cons_append,
      ← List.cons_append] at hl hP
    obtain ⟨i, x₁, hi, h, hl₁, hP₁⟩ :=
      exists_step_of_lower (.block ht) hl hP (by intro h; cases h)
    obtain ⟨type, htype, rfl⟩ := Option.map_eq_some_iff.mp hi
    obtain ⟨x₂, hx₂, hl₂, hP₂⟩ := ihb hl₁ hP₁
    obtain ⟨i', x₃, hi', h', hl₃, hP₃⟩ :=
      exists_step_of_lower .endMark hl₂ hP₂ fun _ => hx₂.below_ne_nil h rfl
    cases hi'
    obtain ⟨y, hy, hly, hPy⟩ := ihr hl₃ hP₃
    exact ⟨y, .block htype h hx₂ h' hy, hly, hPy⟩
  | @loop t body e ts bs rs ht hb hr ihb ihr =>
    rw [List.cons_append, List.append_assoc, List.append_assoc, List.cons_append,
      ← List.cons_append] at hl hP
    obtain ⟨i, x₁, hi, h, hl₁, hP₁⟩ :=
      exists_step_of_lower (.loop ht) hl hP (by intro h; cases h)
    obtain ⟨type, htype, rfl⟩ := Option.map_eq_some_iff.mp hi
    obtain ⟨x₂, hx₂, hl₂, hP₂⟩ := ihb hl₁ hP₁
    obtain ⟨i', x₃, hi', h', hl₃, hP₃⟩ :=
      exists_step_of_lower .endMark hl₂ hP₂ fun _ => hx₂.below_ne_nil h rfl
    cases hi'
    obtain ⟨y, hy, hly, hPy⟩ := ihr hl₃ hP₃
    exact ⟨y, .loop htype h hx₂ h' hy, hly, hPy⟩
  | @ifThen t body e ts bs rs ht hb hr ihb ihr =>
    rw [List.cons_append, List.append_assoc, List.append_assoc, List.cons_append,
      ← List.cons_append] at hl hP
    obtain ⟨i, x₁, hi, h, hl₁, hP₁⟩ :=
      exists_step_of_lower (.ifThen ht) hl hP (by intro h; cases h)
    obtain ⟨type, htype, rfl⟩ := Option.map_eq_some_iff.mp hi
    obtain ⟨x₂, hx₂, hl₂, hP₂⟩ := ihb hl₁ hP₁
    obtain ⟨i', x₃, hi', h', hl₃, hP₃⟩ :=
      exists_step_of_lower .endMark hl₂ hP₂ fun _ => hx₂.below_ne_nil h rfl
    cases hi'
    obtain ⟨y, hy, hly, hPy⟩ := ihr hl₃ hP₃
    exact ⟨y, .ifThen htype h hx₂ h' hy, hly, hPy⟩
  | @ifElse t body e' e ts bs es rs ht hb he' hr ihb ihe ihr =>
    rw [List.cons_append, List.append_assoc, List.append_assoc, List.cons_append,
      List.append_assoc, List.cons_append, ← List.cons_append] at hl hP
    obtain ⟨i, x₁, hi, h, hl₁, hP₁⟩ :=
      exists_step_of_lower (.ifThen ht) hl hP (by intro h; cases h)
    obtain ⟨type, htype, rfl⟩ := Option.map_eq_some_iff.mp hi
    obtain ⟨x₂, hx₂, hl₂, hP₂⟩ := ihb hl₁ hP₁
    obtain ⟨i', x₃, hi', hm, hl₃, hP₃⟩ :=
      exists_step_of_lower .elseMark hl₂ hP₂ (by intro h; cases h)
    cases hi'
    obtain ⟨x₄, hx₄, hl₄, hP₄⟩ := ihe hl₃ hP₃
    have hb₄ : x₄.frames.below ≠ [] := by
      rw [hx₄.same.1, hm.switched.2]
      exact hx₂.below_ne_nil h rfl
    obtain ⟨i', x₅, hi', h', hl₅, hP₅⟩ :=
      exists_step_of_lower .endMark hl₄ hP₄ fun _ => hb₄
    cases hi'
    obtain ⟨y, hy, hly, hPy⟩ := ihr hl₅ hP₅
    exact ⟨y, .ifElse htype h hx₂ hm hx₄ h' hy, hly, hPy⟩

/-- **Where an expression is lowered, the walk succeeds over its bytes.** -/
theorem lower_of_lowers {e : Expr} {y : Stage} (h : Lowers subject.scope P e x y)
    (he : e.Encoded bs) (hl : subject.lower y.frames y.low rest = .ok code) :
    subject.lower x.frames x.low (bs ++ rest) = .ok code := by
  induction h generalizing bs rest with
  | done x =>
    cases he
    exact hl
  | op ho h hr ih =>
    cases he with
    | op hob hrb =>
      rw [List.append_assoc]
      exact lower_of_step (.op hob) ho h (ih hrb hl)
  | block ht h hb he' hr ihb ihr =>
    cases he with
    | block htb hbb hrb =>
      rw [List.cons_append, List.append_assoc, List.append_assoc, List.cons_append,
        ← List.cons_append]
      exact lower_of_step (.block htb) (by rw [Token.resolve, ht]; rfl) h
        (ihb hbb (lower_of_step .endMark rfl he' (ihr hrb hl)))
  | loop ht h hb he' hr ihb ihr =>
    cases he with
    | loop htb hbb hrb =>
      rw [List.cons_append, List.append_assoc, List.append_assoc, List.cons_append,
        ← List.cons_append]
      exact lower_of_step (.loop htb) (by rw [Token.resolve, ht]; rfl) h
        (ihb hbb (lower_of_step .endMark rfl he' (ihr hrb hl)))
  | ifThen ht h hb he' hr ihb ihr =>
    cases he with
    | ifThen htb hbb hrb =>
      rw [List.cons_append, List.append_assoc, List.append_assoc, List.cons_append,
        ← List.cons_append]
      exact lower_of_step (.ifThen htb) (by rw [Token.resolve, ht]; rfl) h
        (ihb hbb (lower_of_step .endMark rfl he' (ihr hrb hl)))
  | ifElse ht h hb hm hb' he' hr ihb ihe ihr =>
    cases he with
    | ifElse htb hbb heb hrb =>
      rw [List.cons_append, List.append_assoc, List.append_assoc, List.cons_append,
        List.append_assoc, List.cons_append, ← List.cons_append]
      exact lower_of_step (.ifThen htb) (by rw [Token.resolve, ht]; rfl) h
        (ihb hbb (lower_of_step .elseMark rfl hm
          (ihe heb (lower_of_step .endMark rfl he' (ihr hrb hl)))))

/-- What is accepted is a token. -/
theorem exists_token_of_lower {bytes : List UInt8}
    (hl : subject.lower x.frames x.low bytes = .ok code) :
    ∃ t bs rest, Token.Encoded t bs ∧ bytes = bs ++ rest := by
  cases bytes with
  | nil => exact absurd hl lower_nil
  | cons op bytes =>
    obtain ⟨a, low, ha, -⟩ := lower_cons_eq_ok_iff.mp hl
    obtain ⟨t, bs, ht, rfl, -⟩ := Typing.State.exists_token_of_accept ha
    exact ⟨t, op :: bs, a.rest, ht, rfl⟩

/-- **Where the walk succeeds, it has come by an expression and a mark.** -/
theorem exists_expr_of_lower {bytes : List UInt8}
    (hl : subject.lower x.frames x.low bytes = .ok code) :
    ∃ (e : Expr) (bs : List UInt8) (mark : UInt8) (rest : List UInt8),
      bytes = bs ++ mark :: rest ∧ e.Encoded bs ∧ (mark = 0x0b ∨ mark = 0x05) := by
  induction hn : bytes.length using Nat.strong_induction_on generalizing x bytes with
  | _ n ih =>
    subst hn
    have hP : ∀ {x : Stage} {bytes : List UInt8}, ∀ v ∈ subject.trail x bytes, True :=
      fun _ _ => trivial
    obtain ⟨t, ts, rest, ht, rfl⟩ := exists_token_of_lower hl
    have hlen : rest.length < (ts ++ rest).length := by
      obtain ⟨op, bs, rfl⟩ := ht.exists_cons
      simp
    -- the frame that the token opens, up to the mark that ends or divides it
    have body : ∀ {x : Stage} {bytes : List UInt8}, subject.lower x.frames x.low bytes = .ok code →
        bytes.length < (ts ++ rest).length →
        ∃ (e : Expr) (bs : List UInt8) (y : Stage) (t : Token) (rest' : List UInt8) (mark : UInt8),
          bytes = bs ++ mark :: rest' ∧ e.Encoded bs ∧
          Lowers subject.scope (fun _ => True) e x y ∧
          subject.lower y.frames y.low ([mark] ++ rest') = .ok code ∧ t.Encoded [mark] ∧
          (t = .endMark ∧ mark = 0x0b ∨ t = .elseMark ∧ mark = 0x05) := by
      intro x bytes hl hlt
      obtain ⟨e, bs, mark, rest', rfl, he, hm⟩ := ih _ hlt hl rfl
      obtain ⟨y, hy, hly, -⟩ := exists_lowers_of_lower he hl hP
      rcases hm with rfl | rfl
      · exact ⟨e, bs, y, .endMark, rest', _, rfl, he, hy, hly, .endMark, .inl ⟨rfl, rfl⟩⟩
      · exact ⟨e, bs, y, .elseMark, rest', _, rfl, he, hy, hly, .elseMark, .inr ⟨rfl, rfl⟩⟩
    cases t with
    | endMark =>
      cases ht
      exact ⟨.done, [], _, rest, rfl, .done, .inl rfl⟩
    | elseMark =>
      cases ht
      exact ⟨.done, [], _, rest, rfl, .done, .inr rfl⟩
    | op o =>
      obtain ⟨i, y, -, h, hly, -⟩ := exists_step_of_lower ht hl hP (by intro h; cases h)
      obtain ⟨e, bs, mark, rest', rfl, he, hm⟩ := ih _ hlen hly rfl
      cases ht with
      | op ho => exact ⟨.op o e, ts ++ bs, mark, rest', by simp, .op ho he, hm⟩
    | block t =>
      obtain ⟨i, x₁, hi, h, hl₁, -⟩ := exists_step_of_lower ht hl hP (by intro h; cases h)
      obtain ⟨type, htype, rfl⟩ := Option.map_eq_some_iff.mp hi
      obtain ⟨e₁, bs₁, x₂, t₂, rest₂, mark, rfl, he₁, hx₂, hl₂, ht₂, hm₂⟩ := body hl₁ hlen
      obtain ⟨i₂, x₃, hi₂, h₂, hl₃, -⟩ :=
        exists_step_of_lower ht₂ hl₂ hP fun _ => hx₂.below_ne_nil h rfl
      rcases hm₂ with ⟨rfl, rfl⟩ | ⟨rfl, rfl⟩
      · obtain ⟨e, bs, mark, rest', rfl, he, hm⟩ := ih _ (by simp at hlen ⊢; omega) hl₃ rfl
        cases ht with
        | block htb =>
          exact ⟨.block t e₁ e, _, mark, rest', by simp, .block htb he₁ he, hm⟩
      · -- an `else` belongs to an `if`
        cases hi₂
        obtain ⟨_, h₁⟩ := h.opened rfl
        have hk := hx₂.same.2.kind
        rw [h₁, h₂.switched.1] at hk
        cases hk
    | loop t =>
      obtain ⟨i, x₁, hi, h, hl₁, -⟩ := exists_step_of_lower ht hl hP (by intro h; cases h)
      obtain ⟨type, htype, rfl⟩ := Option.map_eq_some_iff.mp hi
      obtain ⟨e₁, bs₁, x₂, t₂, rest₂, mark, rfl, he₁, hx₂, hl₂, ht₂, hm₂⟩ := body hl₁ hlen
      obtain ⟨i₂, x₃, hi₂, h₂, hl₃, -⟩ :=
        exists_step_of_lower ht₂ hl₂ hP fun _ => hx₂.below_ne_nil h rfl
      rcases hm₂ with ⟨rfl, rfl⟩ | ⟨rfl, rfl⟩
      · obtain ⟨e, bs, mark, rest', rfl, he, hm⟩ := ih _ (by simp at hlen ⊢; omega) hl₃ rfl
        cases ht with
        | loop htb =>
          exact ⟨.loop t e₁ e, _, mark, rest', by simp, .loop htb he₁ he, hm⟩
      · -- an `else` belongs to an `if`
        cases hi₂
        obtain ⟨_, h₁⟩ := h.opened rfl
        have hk := hx₂.same.2.kind
        rw [h₁, h₂.switched.1] at hk
        cases hk
    | ifThen t =>
      obtain ⟨i, x₁, hi, h, hl₁, -⟩ := exists_step_of_lower ht hl hP (by intro h; cases h)
      obtain ⟨type, htype, rfl⟩ := Option.map_eq_some_iff.mp hi
      obtain ⟨e₁, bs₁, x₂, t₂, rest₂, mark, rfl, he₁, hx₂, hl₂, ht₂, hm₂⟩ := body hl₁ hlen
      have hne := hx₂.below_ne_nil h rfl
      obtain ⟨i₂, x₃, hi₂, h₂, hl₃, -⟩ := exists_step_of_lower ht₂ hl₂ hP fun _ => hne
      rcases hm₂ with ⟨rfl, rfl⟩ | ⟨rfl, rfl⟩
      · obtain ⟨e, bs, mark, rest', rfl, he, hm⟩ := ih _ (by simp at hlen ⊢; omega) hl₃ rfl
        cases ht with
        | ifThen htb =>
          exact ⟨.ifThen t e₁ e, _, mark, rest', by simp, .ifThen htb he₁ he, hm⟩
      · cases hi₂
        have h₃ := h₂.switched.2
        obtain ⟨e₂, bs₂, x₄, t₄, rest₄, mark, rfl, he₂, hx₄, hl₄, ht₄, hm₄⟩ :=
          body hl₃ (by simp at hlen ⊢; omega)
        have hne₄ : x₄.frames.below ≠ [] := by rwa [hx₄.same.1, h₃]
        obtain ⟨i₄, x₅, hi₄, h₄, hl₅, -⟩ := exists_step_of_lower ht₄ hl₄ hP fun _ => hne₄
        rcases hm₄ with ⟨rfl, rfl⟩ | ⟨rfl, rfl⟩
        · obtain ⟨e, bs, mark, rest', rfl, he, hm⟩ := ih _ (by simp at hlen ⊢; omega) hl₅ rfl
          cases ht with
          | ifThen htb =>
            exact ⟨.ifElse t e₁ e₂ e, _, mark, rest', by simp, .ifElse htb he₁ he₂ he, hm⟩
        · -- and there is only one
          cases hi₄
          have hk := hx₄.same.2.kind
          rw [h₃, h₄.switched.1] at hk
          cases hk

end Subject

/-! ## Whole bodies -/

namespace Function

variable {f g : Function} {space : IndexSpace}

/-- Where the walk over the body of a function starts. -/
def start (f : Function) : Stage :=
  ⟨.initial f.type.results, f.prologue⟩

/-- The instructions that the walk over the body of a function comes by. -/
def trail (f : Function) (space : IndexSpace) : List Visit :=
  (f.subject space).trail f.start f.body.bytes

/-- The walk over a body: it ends with the mark that closes the function, and leaves `code`. -/
structure Finishes (f : Function) (space : IndexSpace) (P : Visit → Prop) (y : Stage)
    (code : Flat.Code) : Prop where
  closed : ∃ taken, y.frames.top.Takes y.frames.top.outputs.reverse taken []
  lowered : ∃ low, y.low.step (f.subject space).scope y.frames .endMark = .ok low ∧
    low.code = code ∧ ∃ input, P ⟨input, y, .endMark, low⟩

/-- A function is lowered if the walk over its body succeeds. -/
theorem lower_eq_ok_iff : f.lower space = .ok g ↔ ∃ code, f.body.isLowered = false ∧
    (f.subject space).lower f.start.frames f.start.low f.body.bytes = .ok code ∧
      g = { f with body := .lowered code.bytes } := by
  rw [lower]
  cases hb : f.body with
  | lowered bytes =>
    constructor
    · intro h
      cases h
    · rintro ⟨code, h, -⟩
      cases h
  | raw body =>
    dsimp only [Body.bytes, Body.isLowered]
    rw [Function.code]
    show Except.mapError _ ((f.subject space).lower f.start.frames f.start.low body >>= _) >>= _ =
      .ok g ↔ _
    cases hl : (f.subject space).lower f.start.frames f.start.low body with
    | error e =>
      constructor
      · intro h
        cases h
      · rintro ⟨code, -, h, -⟩
        cases h
    | ok code =>
      constructor
      · intro h
        cases h
        exact ⟨code, rfl, rfl, rfl⟩
      · rintro ⟨code, -, h, rfl⟩
        cases h
        rfl

/-- The walk over the bytes of an expression and one more mark, in the frame of the function. -/
theorem finishes_of_lower {e : Expr} {code : Flat.Code} (he : e.IsBody f.body.bytes)
    (hl : (f.subject space).lower f.start.frames f.start.low f.body.bytes = .ok code)
    (hP : ∀ v ∈ f.trail space, P v) :
    ∃ y, Lowers (f.subject space).scope P e f.start y ∧ f.Finishes space P y code := by
  obtain ⟨bs, hbs, hbody⟩ := he
  rw [trail, hbody] at hP
  rw [hbody] at hl
  obtain ⟨y, hy, hly, hPy⟩ := Subject.exists_lowers_of_lower hbs hl hP
  obtain ⟨i, next, low, hi, hstep, hlow, hp, hnext⟩ :=
    Subject.step_of_lower .endMark (show Subject.lower _ _ _ ([0x0b] ++ []) = _ from hly) hPy
  cases hi
  obtain ⟨-, hc, hn⟩ := Typing.State.leave_eq_ok_iff.mp hstep
  have hbelow : y.frames.below = [] := hy.same.1
  rw [hbelow] at hn
  subst hn
  exact ⟨y, hy, hc, low, hlow, hnext.2, _, hp⟩

/-- The other way round: an expression that is lowered, in a function that closes, is accepted. -/
theorem lower_of_finishes {e : Expr} {y : Stage} {code : Flat.Code} (he : e.IsBody f.body.bytes)
    (hy : Lowers (f.subject space).scope P e f.start y) (hc : f.Finishes space P y code) :
    (f.subject space).lower f.start.frames f.start.low f.body.bytes = .ok code := by
  obtain ⟨bs, hbs, hbody⟩ := he
  rw [hbody]
  obtain ⟨low, hlow, rfl, -⟩ := hc.lowered
  refine Subject.lower_of_lowers hy hbs (Subject.lower_cons_eq_ok_iff.mpr
    ⟨⟨.endMark, none, []⟩, low, ?_, hlow, rfl, rfl⟩)
  have hkind : y.frames.top.kind = .function := hy.same.2.kind
  have hbelow : y.frames.below = [] := hy.same.1
  refine (Typing.State.accept_eq_ok_iff .endMark).mpr
    ⟨rfl, Typing.State.leave_eq_ok_iff.mpr ⟨?_, hc.closed, ?_⟩, rfl⟩
  · rw [hkind]
    intro h
    cases h
  · rw [hbelow]

/-- **A body that is accepted is the bytes of an expression and one more mark.** -/
theorem exists_isBody_of_lower {code : Flat.Code}
    (hl : (f.subject space).lower f.start.frames f.start.low f.body.bytes = .ok code) :
    ∃ e : Expr, e.IsBody f.body.bytes := by
  obtain ⟨e, bs, mark, rest, hbody, he, hm⟩ := Subject.exists_expr_of_lower hl
  rw [hbody] at hl
  have hP : ∀ v ∈ (f.subject space).trail f.start (bs ++ mark :: rest), True :=
    fun _ _ => trivial
  obtain ⟨y, hy, hly, hPy⟩ := Subject.exists_lowers_of_lower he hl hP
  have hkind : y.frames.top.kind = .function := hy.same.2.kind
  have hbelow : y.frames.below = [] := hy.same.1
  rcases hm with rfl | rfl
  · -- the mark closes the function, so nothing comes after it
    obtain ⟨i, next, low, hi, hstep, -, -, hnext⟩ :=
      Subject.step_of_lower .endMark (show Subject.lower _ _ _ ([0x0b] ++ rest) = _ from hly) hPy
    cases hi
    obtain ⟨-, -, hn⟩ := Typing.State.leave_eq_ok_iff.mp hstep
    rw [hbelow] at hn
    subst hn
    exact ⟨e, bs, he, by rw [hbody, hnext.1]⟩
  · -- a function is not divided
    obtain ⟨i, next, low, hi, hstep, -⟩ :=
      Subject.step_of_lower .elseMark (show Subject.lower _ _ _ ([0x05] ++ rest) = _ from hly) hPy
    cases hi
    obtain ⟨s', hs, -⟩ := Typing.State.step_elseMark_eq_ok_iff.mp hstep
    rw [(Typing.State.switch_eq_ok_iff.mp hs).1] at hkind
    cases hkind

end Function

end FlatWasm
