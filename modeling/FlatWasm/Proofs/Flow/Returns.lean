import Mathlib
import FlatWasm.Proofs.Compilation.Defects
import FlatWasm.Proofs.Flow.Invariant
import FlatWasm.Proofs.Flow.Targets
import FlatWasm.Proofs.Lowering.Drops

/-!
# What returns drop

When a function returns, its results are moved down over everything else that it has on the stack: the operands that are
left, the declared locals and the parameters.  How many values these are is a word of the return.  This module says what the
word is, for all returns of all functions of a module that is loaded: the number of operands, parameters and locals modulo
`2 ^ 32` (`returns_drop_all_unless_wraps`).

So the word is right if and only if the sum is below `2 ^ 32`.  The reader of the code section sees to it that the declared
locals are, but it does not count the parameters (`Module.length_locals_lt_of_decode`).  With one parameter and as many locals as
can be declared, a return drops nothing at all (`fullOfLocals_drops_nothing`).

## How returns are compared

`Stage.returns` reads off the frames how many operands the returns of an instruction drop, and does not look at code.  What a
step adds to the returns of the code is then a list of words, one for each of these numbers (`Stage.Kept.adds_of_step`), and so
the returns of the whole code are those of the walk, in the order of the walk (`Subject.flatMap_of_lower`).
-/

namespace FlatWasm

open Source Lowering
open Typing (Frame Nested)

/-! ## The returns of an instruction -/

namespace Stage

variable {x : Stage} {results popped label : ℕ} {i : Instr}

/-- How many operands a branch drops if it can run and leaves the function, when `popped` of them are gone and `results` are
kept.  An instruction that is accepted finds them all, so nothing is cut off here. -/
def returning (x : Stage) (results popped label : ℕ) : List ℕ :=
  if x.frames.live = true ∧ label + 1 = x.frames.depth then [x.height - (results + popped)] else []

/-- How many operands the return at an instruction drops, if it is one.  Tables are left to `tableReturns`. -/
def returns (x : Stage) (results : ℕ) : Instr → List ℕ
  | .br label => x.returning results 0 label
  | .brIf label => x.returning results 1 label
  | .ret => x.returning results 0 x.frames.below.length
  -- the end of the function returns, that of another frame does not
  | .endMark => x.returning results 0 0
  | _ => []

/-- How many operands the entries of a branch table drop that return. -/
def tableReturns (x : Stage) (results : ℕ) : Instr → List ℕ
  | .brTable labels fallback => (labels ++ [fallback]).flatMap (x.returning results 1)
  | _ => []

theorem returning_of_not_live (h : x.frames.live = false) : x.returning results popped label = [] := by
  rw [returning, if_neg]
  rw [h]
  rintro ⟨⟨⟩, -⟩

theorem returns_of_not_live (h : x.frames.live = false) :
    x.returns results i = [] ∧ x.tableReturns results i = [] := by
  cases i with
  | br _ | brIf _ | ret | endMark => exact ⟨returning_of_not_live h, rfl⟩
  | brTable _ _ => exact ⟨rfl, List.flatMap_eq_nil_iff.mpr fun _ _ => returning_of_not_live h⟩
  | _ => exact ⟨rfl, rfl⟩

theorem returns_of_flat {j : Flat.Instr} (h : i.flat? = some j) :
    x.returns results i = [] ∧ x.tableReturns results i = [] := by
  cases i with
  | br _ | brIf _ | ret | endMark | brTable _ _ => cases h
  | _ => exact ⟨rfl, rfl⟩

end Stage

/-- The word of a return that drops operands, and the locals below them. -/
def Scope.dropWord (scope : Scope) (operands : ℕ) : UInt32 :=
  UInt32.ofNat operands + scope.localCount

/-! ## One step -/

namespace Stage

variable {x : Stage} {scope : Scope} {i : Instr}

theorem operandsAbove_outermost {label : ℕ} (h : label + 1 = x.frames.depth) :
    x.frames.operandsAbove label = x.height := by
  rw [Typing.State.operandsAbove, height, Typing.State.operands, List.take_of_length_le]
  exact Nat.le_of_eq h.symm

/-- A label that is in range is the function if no label is kept for it. -/
theorem Ready.length_le_iff (hx : x.Ready scope) {label : ℕ} (hlt : label < x.frames.depth) :
    x.low.labels.length ≤ label ↔ label + 1 = x.frames.depth := by
  have hdepth : x.frames.depth = x.frames.below.length + 1 := rfl
  rw [hx.labels]
  omega

/-- What a branch to a label adds to the returns, where it carries as many values as the function has results. -/
theorem Ready.map_returning (hx : x.Ready scope) (hlive : x.frames.live = true)
    {label popped carried : ℕ} (hlt : label < x.frames.depth)
    (hcarried : label + 1 = x.frames.depth → carried = scope.results.length) :
    (x.returning scope.results.length popped label).map scope.dropWord =
      if x.low.labels.length ≤ label then
        [UInt32.ofNat (x.frames.operandsAbove label - (carried + popped)) + scope.localCount]
      else [] := by
  rw [returning]
  by_cases houter : label + 1 = x.frames.depth
  · rw [if_pos ⟨hlive, houter⟩, if_pos ((hx.length_le_iff hlt).mpr houter),
      operandsAbove_outermost houter, hcarried houter]
    rfl
  · rw [if_neg fun h => houter h.2, if_neg (houter ∘ (hx.length_le_iff hlt).mp)]
    rfl

theorem Ready.length_labelTypes (hx : x.Ready scope) {label : ℕ} (h : label + 1 = x.frames.depth) :
    (x.frames.labelTypes label).length = scope.results.length := by
  have hlabel : label = x.frames.below.length := Nat.succ.inj h
  rw [hlabel, hx.labelTypes_below]

/-- What every step of the walk keeps: frames go with their labels, and the outermost is that of the function. -/
structure Kept (scope : Scope) (x : Stage) : Prop extends x.Paired where
  results : (x.frames.frames.map Frame.labelTypes).getLast? = some scope.results

/-- Where code can run, all open frames but the function have labels. -/
theorem length_filter_hasLabel {fs : List Frame} (hn : Nested fs)
    (hdead : ∀ f ∈ fs, f.dead = false) : (fs.filter Frame.hasLabel).length + 1 = fs.length := by
  induction hn with
  | function hkind _ =>
    rw [List.filter_cons_of_neg (by rw [Frame.hasLabel, hkind]; simp)]
    rfl
  | inner hkind _ _ ih =>
    obtain ⟨hf, hrest⟩ := List.forall_mem_cons.mp hdead
    rw [List.filter_cons_of_pos (Frame.hasLabel_iff.mpr ⟨hf, hkind⟩), List.length_cons, ih hrest]
    rfl

theorem Kept.ready (h : x.Kept scope) (hlive : x.frames.live = true) : x.Ready scope := by
  have hdead := (live_eq_true_iff.mp hlive).2
  have hall : ∀ f ∈ x.frames.frames, f.dead = false :=
    List.forall_mem_cons.mpr ⟨hdead, fun f hf =>
      (live_eq_true_iff.mp (h.nested.dead_eq_false hdead f hf)).2⟩
  have hlength := congrArg List.length h.labelled
  rw [List.length_map, List.length_map] at hlength
  have hfilter := length_filter_hasLabel h.nested hall
  have hframes : x.frames.frames.length = x.frames.below.length + 1 := rfl
  exact ⟨h.sound, hdead, by omega, h.results⟩

theorem Kept.step {op : UInt8} {bytes : List UInt8} {a : Accepted} {frames : Typing.State}
    {low : State} (h : x.Kept scope) (ha : x.frames.accept scope op bytes = .ok a)
    (hlow : x.low.step scope x.frames a.instr = .ok low) (hnext : a.next = some frames) :
    Kept scope ⟨frames, low⟩ := by
  have hstep := Typing.State.step_of_accept ha
  rw [hnext] at hstep
  have hchange := Typing.State.change_of_step hstep
  exact ⟨h.toPaired.step hchange hlow, hchange.getLast?_labelTypes.trans h.results⟩

/-- Where the end of the function is reached, there are as many operands as results. -/
theorem Kept.height_of_closes (h : x.Kept scope) (hlive : x.frames.live = true)
    (hbelow : x.frames.below = []) {next : Option Typing.State}
    (ht : x.frames.step scope.results .endMark = .ok next) : x.height = scope.results.length := by
  obtain ⟨-, ⟨taken, htakes⟩, -⟩ := Typing.State.leave_eq_ok_iff.mp ht
  have hlength := htakes.length_operands (unreachable_of_live hlive)
  have hkind : x.frames.top.kind = .function :=
    (h.nested.kind_iff (k := 0) rfl).mpr (by rw [Typing.State.frames, hbelow]; rfl)
  have hresults : x.frames.top.labelTypes = scope.results := by
    have hlast := h.results
    rw [Typing.State.frames, hbelow] at hlast
    exact Option.some.inj hlast
  rw [Frame.labelTypes, hkind] at hresults
  rw [height_eq, hbelow, hlength, List.length_reverse, show x.frames.top.outputs = _ from hresults]
  rfl

/-- The end of a frame adds a return if the frame is the function. -/
theorem Kept.adds_endMark (h : x.Kept scope) {next : Option Typing.State} {low : State}
    (ht : x.frames.step scope.results .endMark = .ok next) (hdead : x.frames.top.dead = false)
    (hlow : x.low.step scope x.frames .endMark = .ok low) :
    x.low.Adds ((x.returns scope.results.length .endMark).map scope.dropWord) [] low := by
  rw [State.step_endMark hdead] at hlow
  have hadds := h.sound.adds_leave hlow
  show x.low.Adds ((x.returning _ 0 0).map _) [] low
  cases hlive : x.frames.live with
  | false =>
    rw [if_neg (by rw [hlive]; rintro ⟨-, ⟨⟩⟩)] at hadds
    rw [returning_of_not_live hlive]
    exact hadds
  | true =>
    have hlabels := (h.ready hlive).labels
    cases hbelow : x.frames.below with
    | nil =>
      have hnil : x.low.labels = [] := List.eq_nil_of_length_eq_zero (by rw [hlabels, hbelow]; rfl)
      have hdepth : 0 + 1 = x.frames.depth := by rw [Typing.State.depth, hbelow]; rfl
      rw [if_pos ⟨hnil, hlive⟩] at hadds
      rw [returning, if_pos ⟨hlive, hdepth⟩, h.height_of_closes hlive hbelow ht, Nat.add_zero,
        Nat.sub_self]
      exact hadds
    | cons parent below =>
      have hne : ¬(x.low.labels = [] ∧ x.frames.live = true) := by
        rintro ⟨hnil, -⟩
        rw [hnil, hbelow] at hlabels
        cases hlabels
      have hdepth : ¬(x.frames.live = true ∧ 0 + 1 = x.frames.depth) := by
        rw [Typing.State.depth, hbelow]
        simp
      rw [if_neg hne] at hadds
      rw [returning, if_neg hdepth]
      exact hadds

/-- Where code can run, an instruction that is not a mark adds the returns that the frames tell. -/
theorem Kept.adds_of_live (h : x.Kept scope) (hlive : x.frames.live = true)
    {next : Option Typing.State} {low : State} (hlabels : ∀ d ∈ i.labels, d < x.frames.depth)
    (ht : x.frames.step scope.results i = .ok next) (he : i ≠ .elseMark) (hn : i ≠ .endMark)
    (hlow : x.low.emitInstr scope x.frames i = .ok low) :
    x.low.Adds ((x.returns scope.results.length i).map scope.dropWord)
      ((x.tableReturns scope.results.length i).map scope.dropWord) low := by
  have hx := h.ready hlive
  cases hf : i.flat? with
  | some j =>
    rw [(returns_of_flat hf).1, (returns_of_flat hf).2]
    exact h.sound.adds_plain hf hlow
  | none =>
    cases i with
    | elseMark => exact absurd rfl he
    | endMark => exact absurd rfl hn
    | nop =>
      cases hlow
      exact State.adds_refl _
    | unreachable =>
      cases hlow
      exact State.adds_emitAll [.unreachable] rfl fun ha _ => ha.emitAll h.sound [.unreachable]
    | block _ | loop _ | ifThen _ => exact h.sound.adds_opens rfl hlow
    | br label =>
      cases hlow
      rw [returns, hx.map_returning hlive (hlabels label List.mem_cons_self) hx.length_labelTypes]
      exact h.sound.adds_branch scope .always label _ _
    | brIf label =>
      cases hlow
      rw [returns, hx.map_returning hlive (hlabels label List.mem_cons_self) hx.length_labelTypes]
      exact h.sound.adds_branch scope .ifNonzero label _ _
    | ret =>
      rw [emitInstr_leaves hx rfl] at hlow
      cases hlow
      rw [returns, hx.map_returning hlive (Nat.lt_succ_self _) hx.length_labelTypes]
      exact h.sound.adds_branch scope .always _ _ _
    | brTable labels fallback =>
      cases hlow
      obtain ⟨-, harity, -⟩ := Typing.State.step_brTable (unreachable_of_live hlive) ht
      -- all labels of a table carry as many values as the last
      have hcarried : ∀ d ∈ labels ++ [fallback], d + 1 = x.frames.depth →
          (x.frames.labelTypes fallback).length = scope.results.length := by
        intro d hd houter
        rw [← hx.length_labelTypes houter]
        rcases List.mem_append.mp hd with hd | hd
        · exact (harity d hd).symm
        · rw [List.mem_singleton.mp hd]
      have hentries : ∀ d ∈ labels ++ [fallback],
          (x.returning scope.results.length 1 d).map scope.dropWord =
            if x.low.labels.length ≤ d then
              [UInt32.ofNat (x.frames.operandsAbove d -
                ((x.frames.labelTypes fallback).length + 1)) + scope.localCount]
            else [] :=
        fun d hd => hx.map_returning hlive (hlabels d hd) (hcarried d hd)
      rw [tableReturns, List.map_flatMap, List.flatMap_congr hentries]
      exact h.sound.adds_table scope _ _ labels fallback
    | _ => cases hf

/-- **What a step adds to the returns of the code.**  They are those that the frames tell. -/
theorem Kept.adds_of_step (h : x.Kept scope) {next : Option Typing.State} {low : State}
    (hlabels : ∀ d ∈ i.labels, d < x.frames.depth) (ht : x.frames.step scope.results i = .ok next)
    (hlow : x.low.step scope x.frames i = .ok low) :
    x.low.Adds ((x.returns scope.results.length i).map scope.dropWord)
      ((x.tableReturns scope.results.length i).map scope.dropWord) low := by
  cases hdead : x.frames.top.dead with
  | true =>
    rw [State.step_of_dead hdead] at hlow
    cases hlow
    have hlive := not_live_of_dead hdead
    rw [(returns_of_not_live hlive).1, (returns_of_not_live hlive).2]
    exact State.adds_refl _
  | false =>
    cases i with
    | endMark => exact h.adds_endMark ht hdead hlow
    | elseMark =>
      rw [State.step_elseMark hdead] at hlow
      exact h.sound.adds_switch hlow
    | _ =>
      cases hlive : x.frames.live with
      | false =>
        rw [State.step_of_not_live hlive (by rintro ⟨⟩) (by rintro ⟨⟩)] at hlow
        cases hlow
        rw [(returns_of_not_live hlive).1, (returns_of_not_live hlive).2]
        exact State.adds_refl _
      | true =>
        rw [State.step_of_live hlive] at hlow
        exact h.adds_of_live hlive hlabels ht (by rintro ⟨⟩) (by rintro ⟨⟩) hlow

end Stage

/-! ## The walk -/

theorem Typing.State.label_lt_of_accept {s : Typing.State} {scope : Scope} {op : UInt8}
    {bytes : List UInt8} {a : Accepted} (h : s.accept scope op bytes = .ok a) :
    ∀ d ∈ a.instr.labels, d < s.depth := by
  obtain ⟨t, bs, -, -, hres, -⟩ := exists_token_of_accept h
  cases t with
  | op o => exact label_lt_of_resolve hres
  | block _ | loop _ | ifThen _ =>
    obtain ⟨type, -, hi⟩ := Option.map_eq_some_iff.mp hres
    rw [← hi]
    exact List.forall_mem_nil _
  | elseMark | endMark =>
    rw [← Option.some.inj hres]
    exact List.forall_mem_nil _

/-- **What the code has in the end is what each instruction of the walk has added.** -/
theorem Subject.flatMap_of_lower {subject : Subject} {x : Stage} {bytes : List UInt8}
    {code : Flat.Code} {d : Flat.Instr → List UInt32} {r : Visit → List UInt32}
    (h : subject.lower x.frames x.low bytes = .ok code)
    (hv : ∀ v ∈ subject.trail x bytes,
      v.after.code.list.flatMap d = v.before.low.code.list.flatMap d ++ r v) :
    code.list.flatMap d = x.low.code.list.flatMap d ++ (subject.trail x bytes).flatMap r := by
  induction hn : bytes.length using Nat.strong_induction_on generalizing x bytes with
  | _ n ih =>
    subst hn
    cases bytes with
    | nil => exact absurd h lower_nil
    | cons op bytes =>
      obtain ⟨a, low, ha, hlow, hnext⟩ := lower_cons_eq_ok_iff.mp h
      have hlt : a.rest.length < (op :: bytes).length :=
        Nat.lt_succ_of_le (Typing.State.suffix_of_accept ha).length_le
      rw [trail_cons ha hlow] at hv ⊢
      obtain ⟨hfirst, hrest⟩ := List.forall_mem_cons.mp hv
      rw [List.flatMap_cons, ← List.append_assoc, ← hfirst]
      cases hf : a.next with
      | none =>
        rw [hf] at hnext
        rw [← hnext.2]
        exact (List.append_nil _).symm
      | some frames =>
        rw [hf] at hnext hrest
        exact ih _ hlt (x := ⟨frames, low⟩) hnext hrest rfl

namespace Function

variable {f : Function} {space : IndexSpace} {code : Flat.Code}

theorem kept_start (f : Function) (space : IndexSpace) : f.start.Kept (f.subject space).scope :=
  ⟨f.paired_start, rfl⟩

/-- What every instruction of the walk adds to the returns. -/
theorem adds_of_mem_trail : ∀ v ∈ f.trail space,
    v.after.code.list.flatMap Flat.Instr.returnDrops =
        v.before.low.code.list.flatMap Flat.Instr.returnDrops ++
          (v.before.returns f.type.results.length v.instr).map (f.subject space).scope.dropWord ∧
      (v.after.code.size < Flat.returnTarget.toNat →
        v.after.code.list.flatMap Flat.Instr.entryDrops =
          v.before.low.code.list.flatMap Flat.Instr.entryDrops ++
            (v.before.tableReturns f.type.results.length v.instr).map
              (f.subject space).scope.dropWord) := by
  have hstart : f.start.low.Apart := by
    rw [start, prologue]
    split <;> exact ⟨List.forall_mem_nil _, by rintro σ ⟨l, hl, -⟩; cases hl⟩
  refine Subject.forall_mem_trail (I := fun x _ => x.Kept (f.subject space).scope ∧
    (x.low.code.size < Flat.returnTarget.toNat → x.low.Apart)) ?_ ⟨f.kept_start space, fun _ => hstart⟩
  rintro x op bs a low ⟨hkept, hapart⟩ ha hlow
  have hadds := hkept.adds_of_step (Typing.State.label_lt_of_accept ha)
    (Typing.State.step_of_accept ha) hlow
  have hle := (hkept.sound.advances_step hlow).size_le
  have hentries := fun hsize => hadds.entries (hapart (Nat.lt_of_le_of_lt hle hsize)) hsize
  exact ⟨⟨hadds.returns, fun hsize => (hentries hsize).2⟩, fun frames hnext =>
    ⟨hkept.step ha hlow hnext, fun hsize => (hentries hsize).1⟩⟩

/-- How many operands the returns of a function drop, in the order of its body. -/
def returns (f : Function) (space : IndexSpace) : List ℕ :=
  (f.trail space).flatMap fun v => v.before.returns f.type.results.length v.instr

/-- How many operands the entries of its branch tables drop that return. -/
def tableReturns (f : Function) (space : IndexSpace) : List ℕ :=
  (f.trail space).flatMap fun v => v.before.tableReturns f.type.results.length v.instr

/-- Code starts without returns. -/
theorem drops_start (f : Function) : f.start.low.code.list.flatMap Flat.Instr.returnDrops = [] ∧
    f.start.low.code.list.flatMap Flat.Instr.entryDrops = [] := by
  rw [start, prologue]
  split <;> exact ⟨rfl, rfl⟩

theorem returnDrops_of_lower
    (hl : (f.subject space).lower f.start.frames f.start.low f.body.bytes = .ok code) :
    code.list.flatMap Flat.Instr.returnDrops =
      (f.returns space).map (f.subject space).scope.dropWord := by
  rw [Subject.flatMap_of_lower hl fun v hv => (adds_of_mem_trail v hv).1, f.drops_start.1,
    returns, List.map_flatMap]
  rfl

/-- Where offsets are below the target of a return, the entries that return are known by their targets. -/
theorem entryDrops_of_lower
    (hl : (f.subject space).lower f.start.frames f.start.low f.body.bytes = .ok code)
    (hsize : code.bytes.length < Flat.returnTarget.toNat) :
    code.list.flatMap Flat.Instr.entryDrops =
      (f.tableReturns space).map (f.subject space).scope.dropWord := by
  obtain ⟨e, he⟩ := exists_isBody_of_lower hl
  obtain ⟨s, rfl, hsound, -, hadvances⟩ := exists_finished he hl
  have hlength : s.code.size = s.code.bytes.length := hsound.sized
  have hfits : ∀ v ∈ f.trail space, v.after.code.size < Flat.returnTarget.toNat := fun v hv =>
    Nat.lt_of_le_of_lt (hadvances v hv).size_le (hlength ▸ hsize)
  rw [Subject.flatMap_of_lower hl fun v hv => (adds_of_mem_trail v hv).2 (hfits v hv),
    f.drops_start.2, tableReturns, List.map_flatMap]
  rfl

end Function

/-! ## Loaded modules -/

/-- What the word of a return is that drops some operands and `locals` values below them, and when it is their number. -/
structure Drops (locals : ℕ) (word : UInt32) (operands : ℕ) : Prop where
  wraps : word.toNat = (operands + locals) % 2 ^ 32
  exact_iff : word.toNat = operands + locals ↔ operands + locals < 2 ^ 32

theorem Scope.drops_dropWord (scope : Scope) (operands : ℕ) :
    Drops scope.locals.length (scope.dropWord operands) operands := by
  have hwraps : (scope.dropWord operands).toNat = (operands + scope.locals.length) % 2 ^ 32 := by
    rw [dropWord, UInt32.toNat_add, localCount, UInt32.toNat_ofNat', UInt32.toNat_ofNat',
      ← Nat.add_mod]
  refine ⟨hwraps, ?_⟩
  rw [hwraps]
  exact Nat.mod_eq_iff_lt (by decide)

/-- **Returns drop all that is on the stack, unless its number is too large for a word.**  The returns in the code of a loaded
function are those of its body, one by one, and the word of each is the number of operands that it drops and of the parameters
and locals of the function, modulo `2 ^ 32`.  So it is this number if and only if the number is below `2 ^ 32`; of the locals
alone that is always true.  The same holds of the entries of branch tables that return, as long as no offset of the code looks
like the target of a return. -/
theorem returns_drop_all_unless_wraps {bytes : List UInt8} {config : Config} {canceled : Bool}
    {c : Compiled} {k : ℕ} {g : Function} (h : load (some bytes) config canceled = .ok c)
    (hg : c.functions[k]? = some g) :
    ∃ functions f lines, Module.decode bytes = .ok c.module ∧
      c.module.prepare config = .ok (c.space, functions) ∧ functions[k]? = some f ∧
      f.lower c.space = .ok g ∧ Flat.disassemble g.body.bytes = .ok lines ∧
      g.locals.length < 2 ^ 32 ∧
      List.Forall₂ (Drops (g.type.params.length + g.locals.length))
        (lines.flatMap fun line => line.instr.returnDrops) (f.returns c.space) ∧
      (g.body.bytes.length < Flat.returnTarget.toNat →
        List.Forall₂ (Drops (g.type.params.length + g.locals.length))
          (lines.flatMap fun line => line.instr.entryDrops) (f.tableReturns c.space)) := by
  obtain ⟨m, hdecode, hcompile⟩ := load_eq_ok_iff.mp h
  obtain ⟨rfl, functions, hprepare, -, hlowered⟩ := Module.compile_eq_ok_iff.mp hcompile
  obtain ⟨f, hf, hlower⟩ := exists_getElem?_of_forall₂ hlowered hg
  obtain ⟨_, _, entry, -, -, hentry, hraw⟩ :=
    Module.exists_of_rawFunctions (Module.prepare_eq_ok_iff.mp hprepare).2.2.2 hf
  obtain ⟨code, -, hcode, rfl⟩ := Function.lower_eq_ok_iff.mp hlower
  have hlocals : f.locals.length < 2 ^ 32 := by
    rw [hraw]
    exact Module.length_locals_lt_of_decode hdecode entry (List.mem_of_getElem? hentry)
  have hlines : ∀ d : Flat.Instr → List UInt32,
      ((Flat.lines 0 code.list).flatMap fun line => d line.instr) = code.list.flatMap d := by
    intro d
    rw [← List.flatMap_map, Flat.map_instr_lines]
  have hdrops : ∀ operands : List ℕ, List.Forall₂ (Drops (f.type.params.length + f.locals.length))
      (operands.map (f.subject c.space).scope.dropWord) operands := by
    intro operands
    rw [List.forall₂_map_left_iff, List.forall₂_same, ← f.length_localTypes]
    exact fun n _ => (f.subject c.space).scope.drops_dropWord n
  refine ⟨functions, f, _, hdecode, hprepare, hf, hlower, Function.disassemble_code hcode, hlocals,
    ?_, fun hsize => ?_⟩
  · rw [hlines, Function.returnDrops_of_lower hcode]
    exact hdrops _
  · rw [hlines, Function.entryDrops_of_lower hcode hsize]
    exact hdrops _

/-- A module with a function that has a parameter and a local.  It returns through a table, from above three operands that it
does not keep, and at its end. -/
def returnsTwice : List UInt8 :=
  Binary.magic ++ Binary.version ++ [0x01, 0x06, 0x01, 0x60, 0x01, 0x7f, 0x01, 0x7f]
    ++ [0x03, 0x02, 0x01, 0x00]
    ++ [0x0a, 0x1c, 0x01, 0x1a, 0x01, 0x01, 0x7e, 0x41, 0x07, 0x02, 0x7f, 0x41, 0x01, 0x41, 0x02,
      0x20, 0x00, 0x0d, 0x00, 0x41, 0x03, 0x20, 0x00, 0x0e, 0x01, 0x00, 0x01, 0x0b, 0x6a, 0x0b]

theorem returnsTwice_drops : ∃ c g lines, load (some returnsTwice) {} = .ok c ∧
    c.functions[0]? = some g ∧ Flat.disassemble g.body.bytes = .ok lines ∧
    (lines.flatMap fun line => line.instr.returnDrops) = [2] ∧
    (lines.flatMap fun line => line.instr.entryDrops) = [5] ∧
    ∃ f : Function, f.lower c.space = .ok g ∧ List.Forall₂ (Drops 2) [2] (f.returns c.space) ∧
      List.Forall₂ (Drops 2) [5] (f.tableReturns c.space) := by
  have hload : ((load (some returnsTwice) {}).toOption.bind (·.functions[0]?)).map (fun g =>
      (g.type.params.length + g.locals.length, g.body.bytes.length,
        (Flat.disassemble g.body.bytes).toOption.map fun lines =>
          (lines.flatMap fun line => line.instr.returnDrops,
            lines.flatMap fun line => line.instr.entryDrops))) =
      some (2, 83, some ([2], [5])) := by
    decide +kernel
  obtain ⟨g, hfound, hg⟩ := Option.map_eq_some_iff.mp hload
  obtain ⟨c, hc, hfound⟩ := Option.bind_eq_some_iff.mp hfound
  obtain ⟨hlocals, hg⟩ := Prod.mk.inj hg
  obtain ⟨hlength, hwords⟩ := Prod.mk.inj hg
  rw [toOption_eq_some_iff] at hc
  obtain ⟨_, f, lines, -, -, -, hlower, hlines, -, hreturns, hentries⟩ :=
    returns_drop_all_unless_wraps hc hfound
  rw [hlines] at hwords
  obtain ⟨hreturned, hentered⟩ := Prod.mk.inj (Option.some.inj hwords)
  have hentries := hentries (by rw [hlength]; decide)
  rw [hlocals, hreturned] at hreturns
  rw [hlocals, hentered] at hentries
  exact ⟨c, g, lines, hc, hfound, hlines, hreturned, hentered, f, hlower, hreturns, hentries⟩

/-- A module with a function that has a parameter and as many locals as can be declared. -/
def fullOfLocals : List UInt8 :=
  Binary.magic ++ Binary.version ++ [0x01, 0x05, 0x01, 0x60, 0x01, 0x7f, 0x00]
    ++ [0x03, 0x02, 0x01, 0x00]
    ++ [0x0a, 0x0a, 0x01, 0x08, 0x01, 0xff, 0xff, 0xff, 0xff, 0x0f, 0x7f, 0x0b]

/-- Its parameter and locals are `2 ^ 32` values, and it leaves them all where they are. -/
theorem fullOfLocals_drops_nothing : ∃ c g, load (some fullOfLocals) {} = .ok c ∧
    c.functions = [g] ∧ g.type.params.length + g.locals.length = 2 ^ 32 ∧
    Flat.disassemble g.body.bytes = .ok [⟨0, .locals 0xffffffff⟩, ⟨5, .ret 0 0⟩] := by
  have hload : (load (some fullOfLocals) {}).toOption.map (fun c => c.functions.map fun g =>
      (g.type.params.length + g.locals.length, (Flat.disassemble g.body.bytes).toOption)) =
      some [(2 ^ 32, some [⟨0, .locals 0xffffffff⟩, ⟨5, .ret 0 0⟩])] := by
    decide +kernel
  obtain ⟨c, hc, hfunctions⟩ := Option.map_eq_some_iff.mp hload
  obtain ⟨g, hg, hwords⟩ := List.map_eq_singleton_iff.mp hfunctions
  obtain ⟨hlocals, hlines⟩ := Prod.mk.inj hwords
  exact ⟨c, g, toOption_eq_some_iff.mp hc, hg, hlocals,
    toOption_eq_some_iff.mp hlines⟩

end FlatWasm
