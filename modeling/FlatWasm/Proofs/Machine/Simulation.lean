import Mathlib
import FlatWasm.Proofs.Machine.Target

/-!
# Flat code does what its source does

`simulates`: where an expression is laid out, the flat machine follows the source machine.  The proof is by induction on
the layout, so it follows the nesting of the expression.  It speaks of `Laid` and of the two machines only; how the
layout came about does not matter any more.

## What is related

The flat stack has the operands of the innermost frame on top, then those of the frames around it, `outer`, then the
locals.  A branch of the source machine carries operands out of frames; the flat machine has then arrived at the label,
with the operands where they belong.  `Follows` says this for each way in which code can end.

## Why steps are counted

A source run that is out of fuel has gone back to the start of loops as often as it had fuel.  Each time the flat
machine has made a step.  So a flat run that ends after `n` steps leaves no source run out of fuel `n + 1`, and this is
the way from the flat machine back to the source machine.
-/

namespace FlatWasm.Machine

open Source Lowering

variable {σ : Type}

/-! ## Stacks -/

/-- The flat stack of a source configuration, with the operands of the frames around it. -/
def Config.stack (cfg : Config σ) (outer : List Word) : List Word :=
  cfg.operands ++ (outer ++ cfg.locals.reverse)

/-- The flat machine of a source configuration. -/
def Config.cpu (cfg : Config σ) (pc : ℕ) (outer : List Word) : Cpu σ :=
  ⟨pc, cfg.stack outer, cfg.outside⟩

/-- Where a branch out of an exit arrives. -/
def landing (x : Exit) (outer : List Word) (cfg : Config σ) : Status σ :=
  match x.target with
  | some pc => .running (Config.cpu { cfg with operands := cfg.operands.take x.arity } pc
      (outer.drop (outer.length - x.base)))
  | none => .returned (cfg.operands.take x.arity).reverse cfg.outside

theorem length_stack (cfg : Config σ) (outer : List Word) : (cfg.stack outer).length =
    cfg.operands.length + (outer.length + cfg.locals.length) := by
  rw [Config.stack, List.length_append, List.length_append, List.length_reverse]

/-- A branch keeps some operands of its frame, and what is below the frame that it goes to. -/
theorem moveDown_branch {keep base : ℕ} {cfg : Config σ} {outer : List Word}
    (hkeep : keep ≤ cfg.operands.length) (hbase : base ≤ outer.length) :
    moveDown keep (cfg.operands.length + outer.length - keep - base) (cfg.stack outer) =
      some (Config.stack { cfg with operands := cfg.operands.take keep }
        (outer.drop (outer.length - base))) := by
  have hdrop : keep + (cfg.operands.length + outer.length - keep - base) =
      cfg.operands.length + (outer.length - base) := by omega
  rw [moveDown, if_pos (by rw [length_stack]; omega), hdrop, Config.stack, Config.stack,
    List.take_append_of_le_length hkeep, List.drop_length_add_append,
    List.drop_append_of_le_length (by omega)]

/-- A return keeps some operands of its frame and nothing else. -/
theorem moveDown_return {keep : ℕ} {cfg : Config σ} {outer : List Word}
    (hkeep : keep ≤ cfg.operands.length) :
    moveDown keep (cfg.operands.length + outer.length - keep + cfg.locals.length)
      (cfg.stack outer) = some (cfg.operands.take keep) := by
  have hdrop : keep + (cfg.operands.length + outer.length - keep + cfg.locals.length) =
      (cfg.stack outer).length := by
    rw [length_stack]
    omega
  rw [moveDown, if_pos (Nat.le_of_eq hdrop), hdrop, List.drop_length, List.append_nil, Config.stack,
    List.take_append_of_le_length hkeep]

/-- A branch that has nothing to drop leaves the stack as it is. -/
theorem stack_of_drop_eq_zero {keep base : ℕ} {cfg : Config σ} {outer : List Word}
    (hkeep : keep ≤ cfg.operands.length) (hbase : base ≤ outer.length)
    (h : cfg.operands.length + outer.length - keep - base = 0) :
    Config.stack { cfg with operands := cfg.operands.take keep }
      (outer.drop (outer.length - base)) = cfg.stack outer := by
  have hk : keep = cfg.operands.length := by omega
  have hb : outer.length - base = 0 := by omega
  rw [Config.stack, Config.stack, hb, hk, List.take_length, List.drop_zero]

/-! ## Instructions of the world -/

theorem World.apply_append (w : World σ) {i : Instr} {a b : ℕ} {stack : List Word}
    (he : i.effect? = some (a, b)) (ha : a ≤ stack.length) (rest : List Word) (o : Outside σ) :
    w.apply i (stack ++ rest) o =
      (w.apply i stack o).map fun p => (p.1, p.2.map (· ++ rest)) := by
  rw [apply, apply, he]
  dsimp only
  rw [if_pos ha, if_pos (by rw [List.length_append]; omega), List.take_append_of_le_length ha,
    List.drop_append_of_le_length ha]
  cases hp : w.perform i (stack.take a).reverse o with
  | mk o' results => cases results <;> simp

theorem World.apply_cases (w : World σ) {i : Instr} {a b : ℕ} {stack : List Word}
    (he : i.effect? = some (a, b)) (ha : a ≤ stack.length) (o : Outside σ) :
    (∃ o', w.apply i stack o = some (o', none)) ∨
      ∃ o' vs, w.apply i stack o = some (o', some vs) ∧ vs.length = stack.length - a + b := by
  rw [apply, he]
  dsimp only
  rw [if_pos ha, perform]
  cases hact : w.act i (stack.take a).reverse o.state with
  | mk s results =>
    cases results with
    | none => exact .inl ⟨_, rfl⟩
    | some results =>
      refine .inr ⟨_, _, rfl, ?_⟩
      rw [List.length_append, List.length_reverse, List.length_drop, w.length_results he hact]
      omega

/-- What the flat machine does, where the source machine does a plain instruction. -/
def FollowsPlain (w : World σ) (outer : List Word) (i : Instr) (j : Flat.Instr) (height : ℕ)
    (cfg : Config σ) : Outcome σ → Prop
  | .next cfg' => cfg'.locals.length = cfg.locals.length ∧ cfg'.operands.length = height ∧
      ∀ pc, (cfg.cpu pc outer).execute w (some i) j = .running (cfg'.cpu (pc + j.size) outer)
  | .trap o => ∀ pc, (cfg.cpu pc outer).execute w (some i) j = .trapped o
  | _ => False

theorem followsPlain_ask (w : World σ) {outer : List Word} {i : Instr} {j : Flat.Instr} {a b : ℕ}
    {cfg : Config σ} (he : i.effect? = some (a, b)) (ha : a ≤ cfg.operands.length)
    (hexec : ∀ m : Cpu σ, m.execute w (some i) j = m.ask w i (m.pc + j.size)) :
    FollowsPlain w outer i j (cfg.operands.length - a + b) cfg
      (match w.apply i cfg.operands cfg.outside with
      | some (o, some vs) => .next { cfg with operands := vs, outside := o }
      | some (o, none) => .trap o
      | none => .stuck) := by
  have happ := w.apply_append he ha (outer ++ cfg.locals.reverse) cfg.outside
  rcases w.apply_cases he ha cfg.outside with ⟨o, h⟩ | ⟨o, vs, h, hlen⟩
  · rw [h] at happ ⊢
    intro pc
    rw [hexec, Cpu.ask, Config.cpu, Config.stack, happ]
    rfl
  · rw [h] at happ ⊢
    refine ⟨rfl, hlen, fun pc => ?_⟩
    rw [hexec, Cpu.ask, Config.cpu, Config.stack, happ]
    rfl

theorem lt_length_stack {c : Config σ} (outer : List Word) {x : ℕ} (hx : x < c.locals.length) :
    x < (c.stack outer).length := by
  rw [length_stack]
  omega

/-- Locals are at the bottom of the stack. -/
theorem getElem?_reverse_stack {c : Config σ} (outer : List Word) {x : ℕ}
    (hx : x < c.locals.length) : (c.stack outer).reverse[x]? = c.locals[x]? := by
  rw [Config.stack, List.reverse_append, List.reverse_append, List.reverse_reverse,
    List.append_assoc, List.getElem?_append_left hx]

theorem set_reverse_stack {c : Config σ} (v : Word) {x : ℕ} (hx : x < c.locals.length)
    (outer : List Word) : ((c.stack outer).reverse.set x v).reverse =
      Config.stack { c with locals := c.locals.set x v } outer := by
  rw [Config.stack, Config.stack, List.reverse_append, List.reverse_append, List.reverse_reverse,
    List.append_assoc, List.set_append_left _ _ hx, List.reverse_append, List.reverse_append,
    List.reverse_reverse, List.reverse_reverse, List.append_assoc]

/-- **Plain instructions.** -/
theorem followsPlain_step (w : World σ) {outer : List Word} {depth : ℕ} {i : Instr} {j : Flat.Instr}
    {a b : ℕ} {cfg : Config σ} (hj : i.flat? = some j) (he : i.effect? = some (a, b))
    (ha : a ≤ cfg.operands.length)
    (hlocal : ∀ x, i.local? = some x → x.toNat < cfg.locals.length) :
    FollowsPlain w outer i j (cfg.operands.length - a + b) cfg (w.step depth i cfg) := by
  obtain ⟨locals, operands, outside⟩ := cfg
  dsimp only at ha hlocal
  cases i with
  | unreachable | nop | block _ | loop _ | ifThen _ | elseMark | endMark | br _ | brIf _
  | brTable _ _ | ret => cases hj
  | drop =>
    cases hj
    cases he
    obtain _ | ⟨v, vs⟩ := operands
    · cases ha
    · exact ⟨rfl, rfl, fun _ => rfl⟩
  | select =>
    cases hj
    cases he
    obtain _ | ⟨v, _ | ⟨v', _ | ⟨v'', vs⟩⟩⟩ := operands
    · simp at ha
    · simp at ha
    · simp at ha
    · exact ⟨rfl, by simp, fun _ => rfl⟩
  | typedSelect t =>
    cases hj
    cases he
    obtain _ | ⟨v, _ | ⟨v', _ | ⟨v'', vs⟩⟩⟩ := operands
    · simp at ha
    · simp at ha
    · simp at ha
    · exact ⟨rfl, by simp, fun _ => rfl⟩
  | localGet x t =>
    cases hj
    cases he
    have hx := hlocal x rfl
    have hget : locals[x.toNat]? = some locals[x.toNat] := List.getElem?_eq_getElem hx
    have hstep : w.step depth (.localGet x t) ⟨locals, operands, outside⟩ =
        .next ⟨locals, locals[x.toNat] :: operands, outside⟩ := by
      rw [World.step]
      dsimp only
      rw [hget]
    rw [hstep]
    refine ⟨rfl, rfl, fun pc => ?_⟩
    have hget' : (Config.cpu ⟨locals, operands, outside⟩ pc outer).stack.reverse[x.toNat]? =
        some locals[x.toNat] :=
      (getElem?_reverse_stack (c := ⟨locals, operands, outside⟩) outer hx).trans hget
    delta Cpu.execute
    dsimp only
    rw [hget']
    rfl
  | localSet x t =>
    cases hj
    cases he
    obtain _ | ⟨v, vs⟩ := operands
    · cases ha
    have hx := hlocal x rfl
    have hstep : w.step depth (.localSet x t) ⟨locals, v :: vs, outside⟩ =
        .next ⟨locals.set x.toNat v, vs, outside⟩ := if_pos hx
    rw [hstep]
    refine ⟨List.length_set, rfl, fun pc => ?_⟩
    exact (if_pos (lt_length_stack (c := ⟨locals, vs, outside⟩) outer hx)).trans
      (congrArg (fun stack => Status.running ⟨_, stack, outside⟩)
        (set_reverse_stack (c := ⟨locals, vs, outside⟩) v hx outer))
  | localTee x t =>
    cases hj
    cases he
    obtain _ | ⟨v, vs⟩ := operands
    · cases ha
    have hx := hlocal x rfl
    have hstep : w.step depth (.localTee x t) ⟨locals, v :: vs, outside⟩ =
        .next ⟨locals.set x.toNat v, v :: vs, outside⟩ := if_pos hx
    rw [hstep]
    refine ⟨List.length_set, rfl, fun pc => ?_⟩
    exact (if_pos (lt_length_stack (c := ⟨locals, vs, outside⟩) outer hx)).trans
      (congrArg (fun stack => Status.running ⟨_, v :: stack, outside⟩)
        (set_reverse_stack (c := ⟨locals, vs, outside⟩) v hx outer))
  | const32 t bits =>
    cases hj
    cases he
    exact ⟨rfl, rfl, fun _ => rfl⟩
  | const64 t bits =>
    cases hj
    cases he
    exact ⟨rfl, rfl, fun _ => rfl⟩
  | call callee type =>
    cases hj
    obtain ⟨origin, position⟩ := callee
    cases origin <;> exact followsPlain_ask w he ha fun m => if_pos rfl
  | access a offset memory =>
    cases hj
    cases a <;> exact followsPlain_ask w he ha fun m => if_pos rfl
  | memorySize _ | memoryGrow _ | memoryCopy _ | memoryFill _ =>
    cases hj
    exact followsPlain_ask w he ha fun m => rfl
  | _ =>
    cases hj
    exact followsPlain_ask w he ha fun m => if_pos rfl

/-! ## How the flat machine follows -/

/-- The program of a listing. -/
def code (c : Listing) : Program :=
  ⟨Flat.encode c.code, c.source⟩

/-- Words are large enough for the code and for what is on the stack. -/
structure Fits (c : Listing) : Prop where
  size : (Flat.encode c.code).length < 2 ^ 32
  bound {h : ℕ} (hb : c.bound h) : c.scope.locals.length + h < 2 ^ 32

/-- From the status `st`, the flat machine follows a source run that has had some fuel and has come to an end.  Code
that runs through to its end has come to offset `pc`, where `q` is known. -/
def Follows (c : Listing) (w : World σ) (exits : List Exit) (outer : List Word) (pc : ℕ)
    (q : Option Point) (fuel : ℕ) (st : Status σ) : Outcome σ → Prop
  | .next cfg => cfg.locals.length = c.scope.locals.length ∧
      (∃ r, q = some r ∧ r.height = cfg.operands.length + outer.length) ∧
      ∃ k, (code c).run w k st = .running (cfg.cpu pc outer)
  | .branch label cfg => cfg.locals.length = c.scope.locals.length ∧
      ∃ x, exits[label]? = some x ∧ x.arity ≤ cfg.operands.length ∧
        ∃ k, (code c).run w (k + 1) st = landing x outer cfg
  | .trap o => ∃ k, (code c).run w k st = .trapped o
  | .timeout o => ∃ k m, fuel ≤ k ∧ (code c).run w k st = .running m ∧ m.outside = o
  | .stuck => False

variable {c : Listing} {w : World σ} {exits : List Exit} {outer : List Word} {pc pc' : ℕ}
  {q q' : Option Point} {fuel : ℕ} {st : Status σ} {out : Outcome σ}

/-- Some steps first. -/
theorem Follows.of_run {k fuel' : ℕ} {st' : Status σ} (hk : (code c).run w k st = st')
    (hfuel : fuel' ≤ k + fuel) (h : Follows c w exits outer pc q fuel st' out) :
    Follows c w exits outer pc q fuel' st out := by
  subst hk
  cases out with
  | next cfg =>
    obtain ⟨hlocals, hr, l, hl⟩ := h
    exact ⟨hlocals, hr, k + l, by rw [Program.run_add, hl]⟩
  | branch label cfg =>
    obtain ⟨hlocals, x, hx, harity, l, hl⟩ := h
    exact ⟨hlocals, x, hx, harity, k + l, by rw [Nat.add_assoc, Program.run_add, hl]⟩
  | trap o =>
    obtain ⟨l, hl⟩ := h
    exact ⟨k + l, by rw [Program.run_add, hl]⟩
  | timeout o =>
    obtain ⟨l, m, hle, hl, hm⟩ := h
    exact ⟨k + l, m, by omega, by rw [Program.run_add, hl], hm⟩
  | stuck => exact h

theorem Follows.andThen {k : Config σ → Outcome σ} (h : Follows c w exits outer pc q fuel st out)
    (hk : ∀ cfg, cfg.locals.length = c.scope.locals.length →
      (∃ r, q = some r ∧ r.height = cfg.operands.length + outer.length) →
      Follows c w exits outer pc' q' fuel (.running (cfg.cpu pc outer)) (k cfg)) :
    Follows c w exits outer pc' q' fuel st (out.andThen k) := by
  cases out with
  | next cfg =>
    obtain ⟨hlocals, hr, l, hl⟩ := h
    exact (hk cfg hlocals hr).of_run hl (Nat.le_add_left _ _)
  | branch label cfg => exact h
  | trap o => exact h
  | timeout o => exact h
  | stuck => exact h

/-- What is below all frames that a branch leaves is the same for all of them. -/
theorem landing_append {x : Exit} {cfg : Config σ} (inner : List Word) (h : x.base ≤ outer.length) :
    landing x (inner ++ outer) cfg = landing x outer cfg := by
  rw [landing, landing]
  cases x.target with
  | none => rfl
  | some t =>
    have hdrop : (inner ++ outer).drop ((inner ++ outer).length - x.base) =
        outer.drop (outer.length - x.base) := by
      have hlen : (inner ++ outer).length - x.base = inner.length + (outer.length - x.base) := by
        rw [List.length_append]
        omega
      rw [hlen, List.drop_length_add_append]
    dsimp only
    rw [hdrop]

/-- Out of a frame.  A branch to its label has arrived at the end of it. -/
theorem Follows.leave {x : Exit} {inner : List Word} {arity : ℕ} {after : Point}
    (hbase : x.base = (inner ++ outer).length) (hexits : ∀ y ∈ exits, y.base ≤ outer.length)
    (hbranch : ∀ cfg, out = .branch 0 cfg →
      x.target = some pc ∧ x.arity = arity ∧ after.height = x.base + arity)
    (hq : ∀ r ∈ q, r.height = after.height)
    (h : Follows c w (x :: exits) (inner ++ outer) pc q fuel st out) :
    Follows c w exits outer pc (some after) fuel st (out.leave arity inner) := by
  cases out with
  | next cfg =>
    obtain ⟨hlocals, ⟨r, hr, hheight⟩, l, hl⟩ := h
    refine ⟨hlocals, ⟨after, rfl, ?_⟩, l, ?_⟩
    · rw [← hq r hr, hheight, List.length_append, List.length_append]
      omega
    · rw [hl, Config.cpu, Config.cpu, Config.stack, Config.stack, List.append_assoc,
        List.append_assoc]
  | branch label cfg =>
    obtain ⟨hlocals, y, hy, harity, l, hl⟩ := h
    cases label with
    | zero =>
      cases hy
      obtain ⟨htarget, rfl, hafter⟩ := hbranch cfg rfl
      rw [Outcome.leave, if_pos harity]
      refine ⟨hlocals, ⟨after, rfl, ?_⟩, l + 1, ?_⟩
      · rw [hafter, hbase, List.length_append, List.length_append, List.length_take]
        omega
      · have hland : landing x (inner ++ outer) cfg = .running (Config.cpu
            { cfg with operands := cfg.operands.take x.arity } pc (inner ++ outer)) := by
          rw [landing, htarget, hbase, Nat.sub_self, List.drop_zero]
        rw [hl, hland, Config.cpu, Config.cpu, Config.stack, Config.stack, List.append_assoc,
          List.append_assoc]
    | succ label =>
      rw [List.getElem?_cons_succ] at hy
      have hle := hexits y (List.mem_of_getElem? hy)
      rw [landing_append inner hle] at hl
      exact ⟨hlocals, y, hy, harity, l, hl⟩
  | trap o => exact h
  | timeout o => exact h
  | stuck => exact h

/-- No round of a loop is left by a branch back to its start. -/
theorem again_ne_branch {arity : ℕ} {body : ℕ → Config σ → Outcome σ} (fuel : ℕ)
    (cfg cfg' : Config σ) : again arity body fuel cfg ≠ .branch 0 cfg' := by
  induction fuel generalizing cfg with
  | zero =>
    rw [again]
    split
    · nofun
    · next hne => exact hne cfg'
  | succ fuel ih =>
    rw [again]
    split
    · split
      · exact ih _
      · nofun
    · next hne => exact hne cfg'

/-- Round after round of a loop. -/
theorem Follows.again {x : Exit} {body : ℕ → Config σ → Outcome σ} {start : ℕ}
    (htarget : x.target = some start) (hbase : x.base = outer.length)
    (hbody : ∀ fuel cfg, cfg.locals.length = c.scope.locals.length →
      cfg.operands.length = x.arity →
      Follows c w (x :: exits) outer pc q fuel (.running (cfg.cpu start outer)) (body fuel cfg))
    (fuel : ℕ) (cfg : Config σ) (hlocals : cfg.locals.length = c.scope.locals.length)
    (hlen : cfg.operands.length = x.arity) :
    Follows c w (x :: exits) outer pc q fuel (.running (cfg.cpu start outer))
      (again x.arity body fuel cfg) := by
  -- a branch back to the start takes a step and arrives there
  have hback : ∀ {fuel cfg cfg'}, cfg.locals.length = c.scope.locals.length →
      cfg.operands.length = x.arity → body fuel cfg = .branch 0 cfg' →
      cfg'.locals.length = c.scope.locals.length ∧ x.arity ≤ cfg'.operands.length ∧
        ∃ k, (code c).run w (k + 1) (.running (cfg.cpu start outer)) =
          .running (Config.cpu { cfg' with operands := cfg'.operands.take x.arity } start outer) := by
    intro fuel cfg cfg' hlocals hlen hout
    have h := hbody fuel cfg hlocals hlen
    rw [hout] at h
    obtain ⟨hlocals', y, hy, harity, l, hl⟩ := h
    cases hy
    rw [landing, htarget, hbase, Nat.sub_self, List.drop_zero] at hl
    exact ⟨hlocals', harity, l, hl⟩
  induction fuel generalizing cfg with
  | zero =>
    rw [Machine.again]
    split
    · next cfg' hout =>
      obtain ⟨-, -, k, hk⟩ := hback hlocals hlen hout
      exact ⟨k + 1, _, Nat.zero_le _, hk, rfl⟩
    · exact hbody 0 cfg hlocals hlen
  | succ fuel ih =>
    rw [Machine.again]
    split
    · next cfg' hout =>
      obtain ⟨hlocals', harity, k, hk⟩ := hback hlocals hlen hout
      rw [if_pos harity]
      exact (ih { cfg' with operands := cfg'.operands.take x.arity } hlocals'
        (by rw [List.length_take]; omega)).of_run hk (by omega)
    · exact hbody (fuel + 1) cfg hlocals hlen

/-! ## Branches -/

theorem run_one (hfits : Fits c) {m : Cpu σ} {j : Flat.Instr} {js : List Flat.Instr}
    (h : Flat.Spells c.code m.pc (j :: js)) :
    (code c).run w 1 (.running m) = m.execute w (c.source m.pc) j := by
  rw [Program.run, Program.run_zero, Program.step, code, h.fetch hfits.size]

/-- A jump that is taken if a condition does not hold. -/
theorem run_jumpUnless (hfits : Fits c) {t : ℕ} {js : List Flat.Instr}
    (hc : Flat.Spells c.code pc (.jumpUnless (UInt32.ofNat t) :: js)) (ht : t < 2 ^ 32)
    (cfg : Config σ) (v : Word) (outer : List Word) :
    (code c).run w 1
        (.running (Config.cpu { cfg with operands := v :: cfg.operands } pc outer)) =
      .running (cfg.cpu (if isTrue v then pc + 5 else t) outer) := by
  rw [run_one hfits hc]
  show Status.running ⟨if isTrue v then pc + 5 else (UInt32.ofNat t).toNat, _, _⟩ = _
  rw [toNat_word ht]
  rfl

/-- What is known of the exits around code: their labels are in the code, their operands are below the innermost frame,
and the function starts below all operands. -/
structure ExitsFit (c : Listing) (exits : List Exit) : Prop where
  base_le : ∀ x ∈ exits, x.base ≤ floor exits
  target_lt : ∀ x ∈ exits, ∀ t, x.target = some t → t < (Flat.encode c.code).length
  base_eq : ∀ x ∈ exits, x.target = none → x.base = 0

/-- A branch that is about to be taken, with the operands that it finds. -/
structure Branches (c : Listing) (x : Exit) (outer : List Word) (cfg : Config σ) : Prop where
  locals : cfg.locals.length = c.scope.locals.length
  arity : x.arity ≤ cfg.operands.length
  base : x.base ≤ outer.length
  height : c.scope.locals.length + (cfg.operands.length + outer.length) < 2 ^ 32
  target : ∀ t, x.target = some t → t < (Flat.encode c.code).length
  outermost : x.target = none → x.base = 0

namespace Branches

variable {x : Exit} {cfg : Config σ}

theorem toNat_arity (h : Branches c x outer cfg) : (UInt32.ofNat x.arity).toNat = x.arity :=
  toNat_word (by have := h.arity; have := h.height; omega)

theorem toNat_dropped (h : Branches c x outer cfg) :
    (UInt32.ofNat (x.dropped (cfg.operands.length + outer.length))).toNat =
      cfg.operands.length + outer.length - x.arity - x.base :=
  toNat_word (by have := h.height; rw [Exit.dropped]; omega)

theorem toNat_target (h : Branches c x outer cfg) (hfits : Fits c) {t : ℕ} (ht : x.target = some t) :
    (UInt32.ofNat t).toNat = t :=
  toNat_word (by have := h.target t ht; have := hfits.size; omega)

/-- To move values down and jump leads to the label. -/
theorem branch_eq (h : Branches c x outer cfg) (hfits : Fits c) {t : ℕ} (ht : x.target = some t)
    (m : Cpu σ) (hm : m.outside = cfg.outside) :
    m.branch (UInt32.ofNat x.arity)
      (UInt32.ofNat (x.dropped (cfg.operands.length + outer.length))) (UInt32.ofNat t)
      (cfg.stack outer) = landing x outer cfg := by
  rw [Cpu.branch, h.toNat_arity, h.toNat_dropped, moveDown_branch h.arity h.base, landing, ht,
    h.toNat_target hfits ht]
  dsimp only
  rw [Cpu.goto, hm]
  rfl

/-- To move values down over locals and return leads out of the function. -/
theorem ret_eq (h : Branches c x outer cfg) (ht : x.target = none) (m : Cpu σ)
    (hm : m.outside = cfg.outside) :
    m.ret (UInt32.ofNat x.arity) (UInt32.ofNat (x.dropped (cfg.operands.length + outer.length)) +
      c.scope.localCount) (cfg.stack outer) = landing x outer cfg := by
  have hheight := h.height
  have hdrop : (UInt32.ofNat (x.dropped (cfg.operands.length + outer.length)) +
      c.scope.localCount).toNat = cfg.operands.length + outer.length - x.arity +
        cfg.locals.length := by
    have hcount : c.scope.localCount.toNat = c.scope.locals.length :=
      toNat_word (by omega)
    rw [UInt32.toNat_add, h.toNat_dropped, hcount, h.outermost ht, h.locals, Nat.sub_zero]
    exact Nat.mod_eq_of_lt (by omega)
  rw [Cpu.ret, h.toNat_arity, hdrop, moveDown_return h.arity, landing, ht]
  dsimp only
  rw [hm]

/-- A branch that has nothing to drop jumps. -/
theorem goto_eq (h : Branches c x outer cfg) (hfits : Fits c) {t : ℕ} (ht : x.target = some t)
    (hzero : UInt32.ofNat (x.dropped (cfg.operands.length + outer.length)) = 0) (m : Cpu σ)
    (hm : m.outside = cfg.outside) :
    m.goto (UInt32.ofNat t).toNat (cfg.stack outer) = landing x outer cfg := by
  have hdrop := h.toNat_dropped
  rw [hzero] at hdrop
  rw [landing, ht, h.toNat_target hfits ht, Cpu.goto, hm]
  dsimp only
  rw [Config.cpu, stack_of_drop_eq_zero h.arity h.base hdrop.symm]

/-- **A branch that is always taken.** -/
theorem run_always (h : Branches c x outer cfg) (hfits : Fits c)
    (hc : Flat.Spells c.code pc
      (x.code c.scope .always pc (cfg.operands.length + outer.length))) :
    (code c).run w 1 (.running (cfg.cpu pc outer)) = landing x outer cfg := by
  cases ht : x.target with
  | some t =>
    have hcode : x.code c.scope .always pc (cfg.operands.length + outer.length) =
        [if UInt32.ofNat (x.dropped (cfg.operands.length + outer.length)) = 0 then
          .jump (UInt32.ofNat t)
        else .br (UInt32.ofNat x.arity)
          (UInt32.ofNat (x.dropped (cfg.operands.length + outer.length))) (UInt32.ofNat t)] := by
      rw [Exit.code, ht]
      rfl
    rw [hcode] at hc
    rw [run_one hfits hc]
    split
    · next hzero => exact h.goto_eq hfits ht hzero _ rfl
    · exact h.branch_eq hfits ht _ rfl
  | none =>
    have hcode : x.code c.scope .always pc (cfg.operands.length + outer.length) =
        [.ret (UInt32.ofNat x.arity)
          (UInt32.ofNat (x.dropped (cfg.operands.length + outer.length)) + c.scope.localCount)] := by
      rw [Exit.code, ht]
      rfl
    rw [hcode] at hc
    rw [run_one hfits hc]
    exact h.ret_eq ht _ rfl

/-- **A branch that depends on a condition.** -/
theorem run_ifNonzero (h : Branches c x outer cfg) (hfits : Fits c) (v : Word)
    (hc : Flat.Spells c.code pc
      (x.code c.scope .ifNonzero pc (cfg.operands.length + outer.length))) :
    ∃ k, (code c).run w (k + 1)
        (.running (Config.cpu { cfg with operands := v :: cfg.operands } pc outer)) =
      if isTrue v then landing x outer cfg
      else .running (cfg.cpu (pc + (Flat.encode
        (x.code c.scope .ifNonzero pc (cfg.operands.length + outer.length))).length) outer) := by
  cases ht : x.target with
  | some t =>
    have hcode : x.code c.scope .ifNonzero pc (cfg.operands.length + outer.length) =
        [if UInt32.ofNat (x.dropped (cfg.operands.length + outer.length)) = 0 then
          .jumpIf (UInt32.ofNat t)
        else .brIf (UInt32.ofNat x.arity)
          (UInt32.ofNat (x.dropped (cfg.operands.length + outer.length))) (UInt32.ofNat t)] := by
      rw [Exit.code, ht]
      rfl
    rw [hcode] at hc ⊢
    refine ⟨0, ?_⟩
    rw [run_one hfits hc, Flat.length_encode_singleton]
    split
    · next hzero =>
      rw [← h.goto_eq hfits ht hzero (Config.cpu { cfg with operands := v :: cfg.operands } pc outer) rfl]
      show Cpu.goto _ (if isTrue v then _ else _) (cfg.stack outer) = _
      split <;> rfl
    · rw [← h.branch_eq hfits ht (Config.cpu { cfg with operands := v :: cfg.operands } pc outer) rfl]
      rfl
  | none =>
    have hcode : x.code c.scope .ifNonzero pc (cfg.operands.length + outer.length) =
        [.jumpUnless (UInt32.ofNat (pc + 14)), .ret (UInt32.ofNat x.arity)
          (UInt32.ofNat (x.dropped (cfg.operands.length + outer.length)) + c.scope.localCount)] := by
      rw [Exit.code, ht]
      rfl
    rw [hcode] at hc ⊢
    have hlen : (Flat.encode [.jumpUnless (UInt32.ofNat (pc + 14)), .ret (UInt32.ofNat x.arity)
        (UInt32.ofNat (x.dropped (cfg.operands.length + outer.length)) +
          c.scope.localCount)]).length = 14 := rfl
    have hend := hc.end_le
    have hsize := hfits.size
    rw [hlen] at hend ⊢
    -- the jump leads over the return
    have hjump := run_jumpUnless (w := w) hfits hc (by omega) cfg v outer
    cases hv : isTrue v with
    | false =>
      refine ⟨0, ?_⟩
      rw [hjump, hv]
      rfl
    | true =>
      refine ⟨1, ?_⟩
      rw [Program.run_add, hjump, hv]
      show (code c).run w 1 (.running (cfg.cpu (pc + 5) outer)) = landing x outer cfg
      rw [run_one hfits (show Flat.Spells c.code (cfg.cpu (pc + 5) outer).pc _ from hc.tail)]
      exact h.ret_eq ht _ rfl

/-- **An entry of a branch table.** -/
theorem run_entry (h : Branches c x outer cfg) (hfits : Fits c) (v : Word) {keep : UInt32}
    {entries : List Flat.Entry} {fallback : Flat.Entry}
    (hc : Flat.Spells c.code pc [.brTable keep entries fallback])
    (hkeep : keep = UInt32.ofNat x.arity)
    (he : entries.getD v.toUInt32.toNat fallback =
      x.entry c.scope (cfg.operands.length + outer.length)) :
    (code c).run w 1
        (.running (Config.cpu { cfg with operands := v :: cfg.operands } pc outer)) =
      landing x outer cfg := by
  subst hkeep
  rw [run_one hfits hc]
  show (if (entries.getD v.toUInt32.toNat fallback).target = Flat.returnTarget then
      Cpu.ret _ _ (entries.getD v.toUInt32.toNat fallback).drop (cfg.stack outer)
    else Cpu.branch _ _ (entries.getD v.toUInt32.toNat fallback).drop
      (entries.getD v.toUInt32.toNat fallback).target (cfg.stack outer)) = _
  rw [he, Exit.entry]
  cases ht : x.target with
  | some t =>
    have hne : UInt32.ofNat t ≠ Flat.returnTarget := by
      intro heq
      have hnat := congrArg UInt32.toNat heq
      rw [h.toNat_target hfits ht] at hnat
      have hlt := h.target t ht
      have hsize := hfits.size
      have hret : Flat.returnTarget.toNat = 2 ^ 32 - 1 := rfl
      omega
    rw [if_neg hne]
    exact h.branch_eq hfits ht _ rfl
  | none =>
    rw [if_pos rfl]
    exact h.ret_eq ht _ rfl

end Branches

/-! ## One case for each construct -/

/-- The flat machine follows an expression that is laid out. -/
def Simulates (c : Listing) (w : World σ) (exits : List Exit) (pc : ℕ) (p : Point) (e : Expr)
    (pc' : ℕ) (q : Option Point) : Prop :=
  ∀ (fuel : ℕ) (outer : List Word) (cfg : Config σ),
    cfg.locals.length = c.scope.locals.length →
    p.height = cfg.operands.length + outer.length → floor exits = outer.length →
    Follows c w exits outer pc' q fuel (.running (cfg.cpu pc outer))
      (w.exec c.scope e exits.length fuel cfg)

theorem run_markers (hfits : Fits c) {i : Instr} {selected : Selection} {js : List Flat.Instr}
    (hc : Flat.Spells c.code pc (i.markers selected ++ js)) (cfg : Config σ) (outer : List Word) :
    ∃ k, (code c).run w k (.running (cfg.cpu pc outer)) =
      .running (cfg.cpu (pc + (Flat.encode (i.markers selected)).length) outer) := by
  rw [Instr.markers] at hc ⊢
  split
  · split
    · exact ⟨0, by rw [Program.run_zero]; rfl⟩
    · next hs hsel =>
      rw [hs] at hc
      dsimp only at hc
      rw [if_neg hsel] at hc
      exact ⟨1, by rw [run_one hfits hc]; rfl⟩
  · exact ⟨0, by rw [Program.run_zero]; rfl⟩

theorem simulates_plain (hfits : Fits c) {a b : ℕ} {p : Point} {o : Op} {rest : Expr} {i : Instr}
    {j : Flat.Instr} (ho : o.resolve c.scope exits.length = some i) (hj : i.flat? = some j)
    (he : i.effect? = some (a, b)) (hh : floor exits + a ≤ p.height)
    (hc : Flat.Spells c.code pc (i.markers p.selected ++ [j]))
    (hs : ∀ n, pc ≤ n → n < pc + (Flat.encode (i.markers p.selected ++ [j])).length →
      c.source n = some i)
    (ih : Simulates c w exits (pc + (Flat.encode (i.markers p.selected ++ [j])).length)
      ⟨p.height - a + b, i.forgetting (i.selecting p.selected)⟩ rest pc' q) :
    Simulates c w exits pc p (.op o rest) pc' q := by
  intro fuel outer cfg hlocals hheight hfloor
  have hlen := Flat.length_encode_append (i.markers p.selected) [j]
  have hpos := j.size_pos
  rw [Flat.length_encode_singleton] at hlen
  obtain ⟨k, hk⟩ := run_markers (w := w) hfits hc cfg outer
  have hsource : c.source (pc + (Flat.encode (i.markers p.selected)).length) = some i :=
    hs _ (by omega) (by omega)
  have hone : (code c).run w 1
      (.running (cfg.cpu (pc + (Flat.encode (i.markers p.selected)).length) outer)) =
        (cfg.cpu (pc + (Flat.encode (i.markers p.selected)).length) outer).execute w (some i) j := by
    rw [← hsource]
    exact run_one hfits hc.right
  have hplain : FollowsPlain w outer i j (cfg.operands.length - a + b) cfg
      (w.step exits.length i cfg) :=
    followsPlain_step w hj he (by omega) (by rw [hlocals]; exact local_lt_of_resolve ho)
  rw [w.exec_op ho]
  refine Follows.of_run hk (Nat.le_add_left _ _) ?_
  cases hout : w.step exits.length i cfg with
  | next cfg' =>
    rw [hout] at hplain
    obtain ⟨hlocals', hlen', hexec⟩ := hplain
    rw [hexec, Nat.add_assoc, ← hlen] at hone
    refine Follows.of_run hone (Nat.le_add_left _ _) (ih fuel outer cfg' (by rw [hlocals', hlocals]) ?_ hfloor)
    dsimp only
    omega
  | trap o =>
    rw [hout] at hplain
    exact ⟨1, by rw [hone, hplain]⟩
  | branch _ _ | timeout _ | stuck =>
    rw [hout] at hplain
    exact False.elim hplain

/-- A branch that the layout allows can be taken. -/
theorem branches_of_admits (hexits : ExitsFit c exits) {label : ℕ} {x : Exit}
    {p : Point} (hx : exits[label]? = some x) (ha : x.Admits (floor exits) p)
    (hb : c.scope.locals.length + p.height < 2 ^ 32) {cfg : Config σ}
    (hlocals : cfg.locals.length = c.scope.locals.length)
    (hheight : p.height = cfg.operands.length + outer.length) (hfloor : floor exits = outer.length) :
    Branches c x outer cfg := by
  have hmem := List.mem_of_getElem? hx
  have hcarried := ha.carried
  have hbase := ha.base_le
  exact ⟨hlocals, by omega, by omega, by rw [← hheight]; exact hb, hexits.target_lt x hmem,
    hexits.base_eq x hmem⟩

theorem simulates_leave (hfits : Fits c) (hexits : ExitsFit c exits) {label : ℕ} {p : Point} {o : Op}
    {rest : Expr} {i : Instr} {x : Exit} (ho : o.resolve c.scope exits.length = some i)
    (hl : i.leaves? exits.length = some label) (hx : exits[label]? = some x) (hb : c.bound p.height)
    (ha : x.Admits (floor exits) p)
    (hc : Flat.Spells c.code pc (x.code c.scope .always pc p.height)) :
    Simulates c w exits pc p (.op o rest) pc' q := by
  intro fuel outer cfg hlocals hheight hfloor
  have hbranch := branches_of_admits hexits hx ha (hfits.bound hb) hlocals hheight hfloor
  have hout : w.step exits.length i cfg = .branch label cfg := by
    cases i with
    | br l =>
      cases hl
      rfl
    | ret =>
      cases hl
      rfl
    | _ => cases hl
  rw [w.exec_op ho, hout]
  rw [hheight] at hc
  exact ⟨hlocals, x, hx, hbranch.arity, 0, hbranch.run_always hfits hc⟩

theorem simulates_brIf (hfits : Fits c) (hexits : ExitsFit c exits) {label h : ℕ} {p : Point}
    {o : Op} {rest : Expr} {x : Exit} (ho : o.resolve c.scope exits.length = some (.brIf label))
    (hx : exits[label]? = some x) (hb : c.bound p.height) (hh : p.height = h + 1)
    (ha : x.Admits (floor exits) ⟨h, p.selected⟩)
    (hc : Flat.Spells c.code pc (x.code c.scope .ifNonzero pc h))
    (ih : Simulates c w exits (pc + (Flat.encode (x.code c.scope .ifNonzero pc h)).length)
      ⟨h, p.selected⟩ rest pc' q) :
    Simulates c w exits pc p (.op o rest) pc' q := by
  intro fuel outer cfg hlocals hheight hfloor
  obtain ⟨locals, operands, outside⟩ := cfg
  have hbound := hfits.bound hb
  have hcarried := ha.carried
  obtain _ | ⟨v, vs⟩ := operands
  · dsimp only [List.length_nil] at hheight hcarried
    omega
  have hh' : h = vs.length + outer.length := by
    dsimp only [List.length_cons] at hheight
    omega
  subst hh'
  have hbranch : Branches c x outer ⟨locals, vs, outside⟩ :=
    branches_of_admits hexits hx ha (by dsimp only; omega) hlocals rfl hfloor
  obtain ⟨k, hk⟩ := hbranch.run_ifNonzero (w := w) hfits v hc
  rw [w.exec_op ho]
  show Follows c w exits outer pc' q fuel _ (Outcome.andThen
    (if isTrue v then Outcome.branch label ⟨locals, vs, outside⟩ else .next ⟨locals, vs, outside⟩) _)
  cases hv : isTrue v with
  | true =>
    rw [hv, if_pos rfl] at hk
    exact ⟨hlocals, x, hx, hbranch.arity, k, hk⟩
  | false =>
    rw [hv, if_neg (by simp)] at hk
    exact Follows.of_run hk (Nat.le_add_left _ _) (ih fuel outer _ hlocals rfl hfloor)

theorem getD_of_forall₂ {α β : Type} {R : α → β → Prop} {as : List α} {bs : List β} {a : α} {b : β}
    (h : List.Forall₂ R as bs) (hab : R a b) (n : ℕ) : R (as.getD n a) (bs.getD n b) := by
  induction h generalizing n with
  | nil => exact hab
  | cons h _ ih =>
    cases n with
    | zero => exact h
    | succ n => exact ih n

theorem simulates_brTable (hfits : Fits c) (hexits : ExitsFit c exits) {fallback h : ℕ}
    {labels : List ℕ} {p : Point} {o : Op} {rest : Expr} {xs : List Exit} {x : Exit}
    (ho : o.resolve c.scope exits.length = some (.brTable labels fallback))
    (hxs : List.Forall₂ (fun l x => exits[l]? = some x) labels xs)
    (hx : exits[fallback]? = some x) (hb : c.bound p.height) (hh : p.height = h + 1)
    (harity : ∀ y ∈ xs, y.arity = x.arity)
    (ha : ∀ y ∈ xs ++ [x], y.Admits (floor exits) ⟨h, p.selected⟩)
    (hc : Flat.Spells c.code pc [.brTable (UInt32.ofNat x.arity)
      (xs.map (·.entry c.scope h)) (x.entry c.scope h)]) :
    Simulates c w exits pc p (.op o rest) pc' q := by
  intro fuel outer cfg hlocals hheight hfloor
  obtain ⟨locals, operands, outside⟩ := cfg
  have hbound := hfits.bound hb
  have hcarried := (ha x (by simp)).carried
  obtain _ | ⟨v, vs⟩ := operands
  · dsimp only [List.length_nil] at hheight hcarried
    omega
  have hh' : h = vs.length + outer.length := by
    dsimp only [List.length_cons] at hheight
    omega
  subst hh'
  -- the label that is taken, and its exit
  have hy := getD_of_forall₂ hxs hx v.toUInt32.toNat
  have hmem : xs.getD v.toUInt32.toNat x ∈ xs ++ [x] := by
    rw [List.getD_eq_getElem?_getD]
    cases hn : xs[v.toUInt32.toNat]? with
    | none => simp
    | some y => exact List.mem_append_left _ (List.mem_of_getElem? hn)
  have hya : (xs.getD v.toUInt32.toNat x).arity = x.arity := by
    rcases List.mem_append.mp hmem with hmem | hmem
    · exact harity _ hmem
    · rw [List.mem_singleton.mp hmem]
  have hbranch : Branches c (xs.getD v.toUInt32.toNat x) outer ⟨locals, vs, outside⟩ :=
    branches_of_admits hexits hy (ha _ hmem) (by dsimp only; omega) hlocals rfl hfloor
  have hrun := hbranch.run_entry (w := w) hfits v hc (by rw [hya]) (List.getD_map ..)
  rw [w.exec_op ho]
  exact ⟨hlocals, _, hy, hbranch.arity, 0, hrun⟩

theorem ExitsFit.cons {x : Exit} {t : ℕ} (h : ExitsFit c exits) (hf : floor exits ≤ x.base)
    (hx : x.target = some t) (ht : t < (Flat.encode c.code).length) : ExitsFit c (x :: exits) := by
  refine ⟨?_, ?_, ?_⟩ <;> rw [List.forall_mem_cons]
  · exact ⟨Nat.le_refl _, fun y hy => Nat.le_trans (h.base_le y hy) hf⟩
  · refine ⟨fun t' ht' => ?_, h.target_lt⟩
    rw [hx] at ht'
    cases ht'
    exact ht
  · refine ⟨fun hnone => ?_, h.base_eq⟩
    rw [hx] at hnone
    cases hnone

/-- What a frame does not take belongs to the frames around it. -/
theorem cpu_inFrame (cfg : Config σ) (n pc : ℕ) (outer : List Word) :
    Config.cpu { cfg with operands := cfg.operands.take n } pc (cfg.operands.drop n ++ outer) =
      cfg.cpu pc outer := by
  rw [Config.cpu, Config.cpu, Config.stack, Config.stack, List.append_assoc, ← List.append_assoc,
    List.take_append_drop]

/-- A frame and what comes after it. -/
theorem Follows.frame {base n arity : ℕ} {x : Exit} {after : Point} {cfg : Config σ}
    {body : Config σ → Outcome σ} {rest : Expr} {start : ℕ} (hexits : ExitsFit c exits)
    (hn : cfg.operands.length + outer.length = base + n) (hf : floor exits ≤ base)
    (hfloor : floor exits = outer.length) (hbase : x.base = base)
    (hbranch : ∀ cfg' cfg'', body cfg' = .branch 0 cfg'' →
      x.target = some pc ∧ x.arity = arity ∧ after.height = base + arity)
    (hq : ∀ r ∈ q, r.height = after.height)
    (hbody : ∀ (inner : List Word) (cfg' : Config σ), inner.length = base →
      cfg'.operands.length = n → cfg'.locals.length = cfg.locals.length →
      Follows c w (x :: exits) inner pc q fuel (.running (cfg'.cpu start inner)) (body cfg'))
    (hrest : Simulates c w exits pc after rest pc' q') :
    Follows c w exits outer pc' q' fuel (.running (cfg.cpu start outer))
      ((inFrame n cfg fun c outer => (body c).leave arity outer).andThen
        (w.exec c.scope rest exits.length fuel)) := by
  have hle : n ≤ cfg.operands.length := by omega
  have hlen : (cfg.operands.drop n ++ outer).length = base := by
    rw [List.length_append, List.length_drop]
    omega
  rw [inFrame, if_pos hle]
  have h := hbody (cfg.operands.drop n ++ outer)
    { cfg with operands := cfg.operands.take n } hlen (by rw [List.length_take]; omega) rfl
  rw [cpu_inFrame] at h
  refine (Follows.leave (by rw [hbase, hlen])
    (fun y hy => by rw [← hfloor]; exact hexits.base_le y hy)
    (fun cfg'' hc => by rw [hbase]; exact hbranch _ cfg'' hc) hq h).andThen ?_
  rintro cfg' hlocals ⟨r, hr, hheight⟩
  cases hr
  exact hrest fuel outer cfg' hlocals hheight hfloor

theorem simulates_block (hexits : ExitsFit c exits) {pc₁ base : ℕ} {p : Point} {after : Selection}
    {t : BlockType} {body rest : Expr} {type : FuncType}
    (ht : t.resolve c.scope.space = some type) (hh : p.height = base + type.params.length)
    (hf : floor exits ≤ base) (hq : ∀ r ∈ q, (⟨base + type.results.length, after⟩ : Point) ≤ r)
    (ihb : Simulates c w (⟨some pc₁, base, type.results.length, after⟩ :: exits) pc p body pc₁ q)
    (ihr : Simulates c w exits pc₁ ⟨base + type.results.length, after⟩ rest pc' q') :
    Simulates c w exits pc p (.block t body rest) pc' q' := by
  intro fuel outer cfg hlocals hheight hfloor
  rw [World.exec, ht]
  refine Follows.frame (x := ⟨some pc₁, base, type.results.length, after⟩) hexits
    (hheight.symm.trans hh) hf hfloor rfl (fun _ _ _ => ⟨rfl, rfl, rfl⟩)
    (fun r hr => (hq r hr).1.symm) ?_ ihr
  intro inner cfg' hinner hoperands hlocals'
  exact ihb fuel inner cfg' (hlocals'.trans hlocals) (by omega) (by rw [hinner]; rfl)

theorem simulates_loop (hexits : ExitsFit c exits) {pc₁ base : ℕ} {p : Point} {after : Selection}
    {t : BlockType} {body rest : Expr} {type : FuncType}
    (ht : t.resolve c.scope.space = some type) (hh : p.height = base + type.params.length)
    (hf : floor exits ≤ base) (hq : ∀ r ∈ q, (⟨base + type.results.length, after⟩ : Point) ≤ r)
    (ihb : Simulates c w (⟨some pc, base, type.params.length, .unknown⟩ :: exits) pc
      ⟨p.height, .unknown⟩ body pc₁ q)
    (ihr : Simulates c w exits pc₁ ⟨base + type.results.length, after⟩ rest pc' q') :
    Simulates c w exits pc p (.loop t body rest) pc' q' := by
  intro fuel outer cfg hlocals hheight hfloor
  rw [World.exec, ht]
  refine Follows.frame (x := ⟨some pc, base, type.params.length, .unknown⟩) hexits
    (hheight.symm.trans hh) hf hfloor rfl
    (fun cfg' cfg'' hc => absurd hc (again_ne_branch fuel cfg' cfg''))
    (fun r hr => (hq r hr).1.symm) ?_ ihr
  intro inner cfg' hinner hoperands hlocals'
  refine Follows.again rfl hinner.symm ?_ fuel cfg' (hlocals'.trans hlocals) hoperands
  -- the body from the start of the loop, with any fuel
  intro fuel cfg'' hlocals'' hoperands''
  dsimp only at hoperands''
  exact ihb fuel inner cfg'' hlocals'' (by dsimp only; omega) (by rw [hinner]; rfl)

/-- The condition of an `if` is on top. -/
theorem exists_cons_of_height {base n : ℕ} {p : Point} {cfg : Config σ}
    (hh : p.height = base + n + 1) (hf : floor exits ≤ base)
    (hheight : p.height = cfg.operands.length + outer.length) (hfloor : floor exits = outer.length) :
    ∃ v vs, cfg.operands = v :: vs ∧ vs.length + outer.length = base + n := by
  cases hops : cfg.operands with
  | nil =>
    rw [hops, List.length_nil] at hheight
    omega
  | cons v vs =>
    rw [hops, List.length_cons] at hheight
    exact ⟨v, vs, rfl, by omega⟩

theorem simulates_ifThen (hfits : Fits c) (hexits : ExitsFit c exits) {pc₁ base : ℕ} {p : Point}
    {after : Selection} {t : BlockType} {body rest : Expr} {type : FuncType}
    (ht : t.resolve c.scope.space = some type) (hio : type.params = type.results)
    (hh : p.height = base + type.params.length + 1) (hf : floor exits ≤ base)
    (hpc : pc₁ < (Flat.encode c.code).length)
    (hc : Flat.Spells c.code pc [.jumpUnless (UInt32.ofNat pc₁)])
    (hq : ∀ r ∈ q, (⟨base + type.results.length, after⟩ : Point) ≤ r)
    (ihb : Simulates c w (⟨some pc₁, base, type.results.length, after⟩ :: exits) (pc + 5)
      ⟨base + type.params.length, p.selected⟩ body pc₁ q)
    (ihr : Simulates c w exits pc₁ ⟨base + type.results.length, after⟩ rest pc' q') :
    Simulates c w exits pc p (.ifThen t body rest) pc' q' := by
  intro fuel outer cfg hlocals hheight hfloor
  obtain ⟨v, vs, hops, hvs⟩ := exists_cons_of_height hh hf hheight hfloor
  obtain ⟨locals, operands, outside⟩ := cfg
  obtain rfl : operands = v :: vs := hops
  have hsize := hfits.size
  have hjump := run_jumpUnless (w := w) hfits hc (by omega) ⟨locals, vs, outside⟩ v outer
  rw [World.exec, ht]
  dsimp only
  refine Follows.of_run hjump (Nat.le_add_left _ _) ?_
  cases hv : isTrue v with
  | true =>
    refine Follows.frame (x := ⟨some pc₁, base, type.results.length, after⟩) hexits hvs hf hfloor rfl
      (fun _ _ _ => ⟨rfl, rfl, rfl⟩) (fun r hr => (hq r hr).1.symm) ?_ ihr
    intro inner cfg' hinner hoperands hlocals'
    exact ihb fuel inner cfg' (hlocals'.trans hlocals) (by dsimp only; omega) (by rw [hinner]; rfl)
  | false =>
    -- the body is skipped, and what it takes is what it would leave
    refine Follows.frame (x := ⟨some pc₁, base, type.results.length, after⟩)
      (q := some ⟨base + type.results.length, after⟩) hexits hvs hf hfloor rfl
      (fun _ _ _ => ⟨rfl, rfl, rfl⟩) (by rintro r ⟨⟩; rfl) ?_ ihr
    intro inner cfg' hinner hoperands hlocals'
    refine ⟨hlocals'.trans hlocals, ⟨_, rfl, ?_⟩, 0, Program.run_zero _ _ _⟩
    dsimp only
    rw [← hio]
    omega

theorem simulates_ifElse (hfits : Fits c) (hexits : ExitsFit c exits) {pc₁ pc₂ pc₃ base : ℕ}
    {p : Point} {q₁ : Option Point} {after : Selection} {t : BlockType} {body orElse rest : Expr}
    {type : FuncType} (ht : t.resolve c.scope.space = some type)
    (hh : p.height = base + type.params.length + 1) (hf : floor exits ≤ base)
    (hpc₂ : pc₂ < 2 ^ 32) (hpc₃ : pc₃ < 2 ^ 32)
    (hc : Flat.Spells c.code pc [.jumpUnless (UInt32.ofNat pc₂)])
    (hjump : SkipsElse c.code ⟨base + type.results.length, after⟩ q pc₁ pc₂ pc₃)
    (hq : ∀ r ∈ q₁, (⟨base + type.results.length, after⟩ : Point) ≤ r)
    (ihb : Simulates c w (⟨some pc₃, base, type.results.length, after⟩ :: exits) (pc + 5)
      ⟨base + type.params.length, p.selected⟩ body pc₁ q)
    (ihe : Simulates c w (⟨some pc₃, base, type.results.length, after⟩ :: exits) pc₂
      ⟨base + type.params.length, p.selected⟩ orElse pc₃ q₁)
    (ihr : Simulates c w exits pc₃ ⟨base + type.results.length, after⟩ rest pc' q') :
    Simulates c w exits pc p (.ifElse t body orElse rest) pc' q' := by
  intro fuel outer cfg hlocals hheight hfloor
  obtain ⟨v, vs, hops, hvs⟩ := exists_cons_of_height hh hf hheight hfloor
  obtain ⟨locals, operands, outside⟩ := cfg
  obtain rfl : operands = v :: vs := hops
  have hcond := run_jumpUnless (w := w) hfits hc hpc₂ ⟨locals, vs, outside⟩ v outer
  rw [World.exec, ht]
  dsimp only
  refine Follows.of_run hcond (Nat.le_add_left _ _) ?_
  cases hv : isTrue v with
  | true =>
    refine Follows.frame (x := ⟨some pc₃, base, type.results.length, after⟩)
      (q := some ⟨base + type.results.length, after⟩) hexits hvs hf hfloor rfl
      (fun _ _ _ => ⟨rfl, rfl, rfl⟩) (by rintro r ⟨⟩; rfl) ?_ ihr
    intro inner cfg' hinner hoperands hlocals'
    have hbody := ihb fuel inner cfg' (hlocals'.trans hlocals) (by dsimp only; omega)
      (by rw [hinner]; rfl)
    -- a body that runs through to its end jumps over the second branch
    cases hout : w.exec c.scope body (exits.length + 1) fuel cfg' with
    | next cfg'' =>
      rw [List.length_cons, hout] at hbody
      obtain ⟨hlocals'', ⟨r, rfl, hr⟩, k, hk⟩ := hbody
      obtain ⟨⟨hheight', -⟩, hspell, -⟩ := hjump
      refine ⟨hlocals'', ⟨_, rfl, ?_⟩, k + 1, ?_⟩
      · exact hheight'.trans hr
      · rw [if_pos rfl, Program.run_add, hk, run_one hfits hspell]
        show Status.running ⟨(UInt32.ofNat pc₃).toNat, _, _⟩ = _
        rw [toNat_word hpc₃]
        rfl
    | branch _ _ | trap _ | timeout _ | stuck =>
      rw [List.length_cons, hout] at hbody
      exact hbody
  | false =>
    refine Follows.frame (x := ⟨some pc₃, base, type.results.length, after⟩) hexits hvs hf hfloor rfl
      (fun _ _ _ => ⟨rfl, rfl, rfl⟩) (fun r hr => (hq r hr).1.symm) ?_ ihr
    intro inner cfg' hinner hoperands hlocals'
    exact ihe fuel inner cfg' (hlocals'.trans hlocals) (by dsimp only; omega) (by rw [hinner]; rfl)

/-- **Where an expression is laid out, the flat machine follows the source machine.** -/
theorem simulates (w : World σ) (hfits : Fits c) {p : Option Point} {e : Expr}
    (h : Laid c exits pc p e pc' q) {p₀ : Point} (hp : p = some p₀) (hexits : ExitsFit c exits)
    (hend : q ≠ none → pc' < (Flat.encode c.code).length) :
    Simulates c w exits pc p₀ e pc' q := by
  induction h generalizing p₀ with
  | done exits pc p =>
    subst hp
    intro fuel outer cfg hlocals hheight hfloor
    exact ⟨hlocals, ⟨p₀, rfl, hheight⟩, 0, Program.run_zero _ _ _⟩
  | dead exits pc e => cases hp
  | nop ho hr ih =>
    cases hp
    intro fuel outer cfg hlocals hheight hfloor
    rw [w.exec_op ho]
    exact ih rfl hexits hend fuel outer cfg hlocals hheight hfloor
  | unreachable ho hc =>
    intro fuel outer cfg hlocals hheight hfloor
    rw [w.exec_op ho]
    exact ⟨1, by rw [run_one hfits hc]; rfl⟩
  | plain ho hj he hb hh hc hs hr ih =>
    cases hp
    exact simulates_plain hfits ho hj he hh hc hs (ih rfl hexits hend)
  | leave ho hl hx hb ha hc =>
    cases hp
    exact simulates_leave hfits hexits ho hl hx hb ha hc
  | brIf ho hx hb hh ha hc hr ih =>
    cases hp
    exact simulates_brIf hfits hexits ho hx hb hh ha hc (ih rfl hexits hend)
  | brTable ho hxs hx hb hh harity ha hc =>
    cases hp
    exact simulates_brTable hfits hexits ho hxs hx hb hh harity ha hc
  | block ht hh hf hbody hq hr ihb ihr =>
    cases hp
    have hpc := hr.lt nofun hend
    exact simulates_block hexits ht hh hf hq
      (ihb rfl (hexits.cons hf rfl hpc) fun _ => hpc) (ihr rfl hexits hend)
  | loop ht hh hf hbody hq hr ihb ihr =>
    cases hp
    have hpc := hr.lt nofun hend
    have hstart := hbody.lt nofun fun _ => hpc
    exact simulates_loop hexits ht hh hf hq
      (ihb rfl (hexits.cons hf rfl hstart) fun _ => hpc) (ihr rfl hexits hend)
  | ifThen ht hio hb hh hf hc hbody hq hskip hr ihb ihr =>
    cases hp
    have hpc := hr.lt nofun hend
    exact simulates_ifThen hfits hexits ht hio hh hf hpc hc hq
      (ihb rfl (hexits.cons hf rfl hpc) fun _ => hpc) (ihr rfl hexits hend)
  | @ifElse exits pc pc₁ pc₂ pc₃ pc' base p q q₁ q' after t body orElse rest type ht hb hh hf hc
      hbody hjump helse hq hr ihb ihe ihr =>
    cases hp
    have hsize := hfits.size
    have hpc₃ := hr.lt nofun hend
    have hpc₂ := helse.lt nofun fun _ => hpc₃
    have hpc₁ : q ≠ none → pc₁ < (Flat.encode c.code).length := by
      intro hne
      obtain ⟨r, rfl⟩ := Option.ne_none_iff_exists'.mp hne
      exact hjump.2.1.lt
    exact simulates_ifElse hfits hexits ht hh hf (by omega) (by omega) hc hjump hq
      (ihb rfl (hexits.cons hf rfl hpc₃) hpc₁) (ihe rfl (hexits.cons hf rfl hpc₃) fun _ => hpc₃)
      (ihr rfl hexits hend)

end FlatWasm.Machine
