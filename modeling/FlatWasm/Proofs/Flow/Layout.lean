import Mathlib
import FlatWasm.Proofs.Source.Syntax
import FlatWasm.Proofs.Lowering.Steps
import FlatWasm.Proofs.Typing.Heights

/-!
# How an expression is laid out in flat code

`Laid` says of finished code that an expression stands at an offset of it.  It follows the nesting of the expression and
speaks of offsets and heights only: nothing in it waits for a target, and nothing in it mentions the state of the pass.
What flat code does, and what is known at each point of it, is proved from `Laid` alone.

A `Point` is what is known at an offset that can be reached: how many operands there are above the locals, and which
stores are certainly selected.  An `Exit` is what a branch to a label needs to know: where it goes, how many operands
are below the frame, how many values the branch carries, and which stores are certainly selected there.  The outermost
exit has no offset, since to branch there is to return.

## Why heights are counted from the locals

The frames of the type system have operands of their own.  In flat code all operands are on one stack.  A point counts
all of them; the operands of the innermost frame are those above `floor`.

## Why words are left as they are

Code has words of 32 bits where an expression has numbers.  `Laid` gives the words of the code as they are computed, by
`UInt32.ofNat`, so that it holds of all code.  That a word is the number it stands for is said where it is needed, and
`Listing.bound` is there to hold what is known of heights.
-/

namespace FlatWasm

open Source Lowering

namespace Flat

/-- The instructions `is` stand at an offset of code. -/
def Spells (code : List Instr) (pc : ℕ) (is : List Instr) : Prop :=
  ∃ pre post, code = pre ++ (is ++ post) ∧ (encode pre).length = pc

theorem length_encode_cons (i : Instr) (is : List Instr) :
    (encode (i :: is)).length = i.size + (encode is).length := by
  rw [encode, List.flatMap_cons, List.length_append]
  rfl

theorem length_encode_append (is js : List Instr) :
    (encode (is ++ js)).length = (encode is).length + (encode js).length := by
  rw [Code.encode_append, List.length_append]

theorem length_encode_singleton (i : Instr) : (encode [i]).length = i.size := by
  rw [Code.encode_singleton]
  rfl

variable {code is js : List Instr} {pc : ℕ}

theorem Spells.left (h : Spells code pc (is ++ js)) : Spells code pc is := by
  obtain ⟨pre, post, rfl, hpc⟩ := h
  exact ⟨pre, js ++ post, by simp, hpc⟩

theorem Spells.right (h : Spells code pc (is ++ js)) :
    Spells code (pc + (encode is).length) js := by
  obtain ⟨pre, post, rfl, rfl⟩ := h
  exact ⟨pre ++ is, post, by simp, length_encode_append _ _⟩

theorem Spells.head {i : Instr} (h : Spells code pc (i :: is)) : Spells code pc [i] :=
  Spells.left (show Spells code pc ([i] ++ is) from h)

theorem Spells.tail {i : Instr} (h : Spells code pc (i :: is)) : Spells code (pc + i.size) is := by
  rw [← length_encode_singleton]
  exact Spells.right (show Spells code pc ([i] ++ is) from h)

theorem Spells.end_le (h : Spells code pc is) :
    pc + (encode is).length ≤ (encode code).length := by
  obtain ⟨pre, post, rfl, rfl⟩ := h
  rw [length_encode_append, length_encode_append]
  omega

theorem Spells.lt {i : Instr} (h : Spells code pc (i :: is)) : pc < (encode code).length := by
  have hend := h.end_le
  have hpos := i.size_pos
  rw [length_encode_cons] at hend
  omega

/-- Instructions do not overlap. -/
theorem Spells.eq_of_overlap {i j : Instr} {n : ℕ} (hi : Spells code pc (i :: is))
    (hj : Spells code n (j :: js)) (hle : pc ≤ n) (hlt : n < pc + i.size) : n = pc := by
  obtain ⟨pre, post, rfl, rfl⟩ := hi
  obtain ⟨pre', post', heq, rfl⟩ := hj
  -- of two places in code, one comes first, and then all that stands before it
  rcases Nat.lt_or_ge pre.length pre'.length with hlen | hlen
  · have hfirst : pre ++ [i] <+: pre ++ (i :: is ++ post) := ⟨is ++ post, by simp⟩
    have hprefix : pre ++ [i] <+: pre' :=
      List.prefix_of_prefix_length_le hfirst ⟨j :: js ++ post', heq.symm⟩ (by simpa using hlen)
    obtain ⟨rest, rfl⟩ := hprefix
    rw [length_encode_append, length_encode_append, length_encode_singleton] at hlt
    omega
  · have hprefix : pre' <+: pre :=
      List.prefix_of_prefix_length_le ⟨_, heq.symm⟩ ⟨_, rfl⟩ hlen
    obtain ⟨rest, rfl⟩ := hprefix
    rw [length_encode_append] at hle ⊢
    omega

end Flat

/-- A word that is large enough is the number that it stands for. -/
theorem toNat_word {n : ℕ} (h : n < 2 ^ 32) : (UInt32.ofNat n).toNat = n :=
  UInt32.toNat_ofNat_of_lt' h

/-- What is known at an offset. -/
structure Point where
  /-- How many operands there are above the locals. -/
  height : ℕ
  /-- The stores that are certainly selected. -/
  selected : Selection

/-- The height is the same, and what `a` knows is known at `b`. -/
instance : LE Point :=
  ⟨fun a b => a.height = b.height ∧ a.selected ≤ b.selected⟩

theorem Point.le_def {a b : Point} : a ≤ b ↔ a.height = b.height ∧ a.selected ≤ b.selected :=
  Iff.rfl

theorem Point.le_refl (a : Point) : a ≤ a :=
  ⟨rfl, Selection.le_refl _⟩

theorem Point.le_trans {a b c : Point} (hab : a ≤ b) (hbc : b ≤ c) : a ≤ c :=
  ⟨hab.1.trans hbc.1, Selection.le_trans hab.2 hbc.2⟩

/-- What a branch to a label needs to know. -/
structure Exit where
  /-- The offset of the label; none for the function. -/
  target : Option ℕ
  /-- How many operands are below the frame. -/
  base : ℕ
  /-- How many values a branch carries. -/
  arity : ℕ
  /-- The stores that are certainly selected at the label. -/
  selected : Selection

namespace Exit

/-- What is known at the label. -/
def point (x : Exit) : Point :=
  ⟨x.base + x.arity, x.selected⟩

/-- How many operands a branch drops that carries its values from a height. -/
def dropped (x : Exit) (height : ℕ) : ℕ :=
  height - x.arity - x.base

/-- The code of a branch that starts at offset `pc` and leaves from `height`. -/
def code (x : Exit) (scope : Scope) (kind : BranchKind) (pc height : ℕ) : List Flat.Instr :=
  match x.target with
  | some target =>
    [kind.instr (UInt32.ofNat x.arity) (UInt32.ofNat (x.dropped height)) (UInt32.ofNat target)]
  | none =>
    State.returnCode scope kind pc (UInt32.ofNat x.arity) (UInt32.ofNat (x.dropped height))

/-- The table entry of a branch that leaves from `height`. -/
def entry (x : Exit) (scope : Scope) (height : ℕ) : Flat.Entry :=
  match x.target with
  | some target => ⟨UInt32.ofNat (x.dropped height), UInt32.ofNat target⟩
  | none => ⟨UInt32.ofNat (x.dropped height) + scope.localCount, Flat.returnTarget⟩

/-- The values that the branch carries are operands of the innermost frame, which starts at `floor`. -/
structure Admits (x : Exit) (floor : ℕ) (p : Point) : Prop where
  carried : floor + x.arity ≤ p.height
  base_le : x.base ≤ floor
  selected_le : x.selected ≤ p.selected

theorem exists_code_eq_cons (x : Exit) (scope : Scope) (kind : BranchKind) (pc height : ℕ) :
    ∃ j js, x.code scope kind pc height = j :: js := by
  rw [code]
  split
  · exact ⟨_, _, rfl⟩
  · cases kind <;> exact ⟨_, _, rfl⟩

end Exit

/-- Where the operands of the innermost frame start. -/
def floor (exits : List Exit) : ℕ :=
  (exits.head?.map Exit.base).getD 0

@[simp] theorem floor_cons (x : Exit) (exits : List Exit) : floor (x :: exits) = x.base := rfl

/-- Finished code, and what is known of it besides its instructions. -/
structure Listing where
  code : List Flat.Instr
  scope : Scope
  /-- The source instruction that emitted the byte at an offset. -/
  source : ℕ → Option Instr
  /-- What is known of the number of operands at every point. -/
  bound : ℕ → Prop

/-- The first branch of an `if` runs to offset `pc₁`, where `q` is known.  If it can get there, it jumps over the second
branch, which starts at `pc₂` and ends at `pc₃`. -/
def SkipsElse (code : List Flat.Instr) (after : Point) (q : Option Point) (pc₁ pc₂ pc₃ : ℕ) : Prop :=
  match q with
  | some r => after ≤ r ∧ Flat.Spells code pc₁ [.jump (UInt32.ofNat pc₃)] ∧ pc₂ = pc₁ + 5
  | none => pc₂ = pc₁

/-- An expression stands in code from one offset to another.  `exits` are the labels around it, from the inside out, and
the points say what is known at the two offsets; `none` is known of an offset that cannot be reached. -/
inductive Laid (c : Listing) :
    List Exit → ℕ → Option Point → Expr → ℕ → Option Point → Prop where
  | done (exits : List Exit) (pc : ℕ) (p : Option Point) : Laid c exits pc p .done pc p
  /-- Nothing is emitted where code cannot run. -/
  | dead (exits : List Exit) (pc : ℕ) (e : Expr) : Laid c exits pc none e pc none
  | nop {exits : List Exit} {pc pc' : ℕ} {p : Point} {q : Option Point} {o : Op} {rest : Expr}
      (ho : o.resolve c.scope exits.length = some .nop)
      (hr : Laid c exits pc (some p) rest pc' q) : Laid c exits pc (some p) (.op o rest) pc' q
  | unreachable {exits : List Exit} {pc : ℕ} {p : Point} {o : Op} {rest : Expr}
      (ho : o.resolve c.scope exits.length = some .unreachable)
      (hc : Flat.Spells c.code pc [.unreachable]) :
      Laid c exits pc (some p) (.op o rest) (pc + 1) none
  | plain {exits : List Exit} {pc pc' a b : ℕ} {p : Point} {q : Option Point} {o : Op}
      {rest : Expr} {i : Instr} {j : Flat.Instr}
      (ho : o.resolve c.scope exits.length = some i) (hj : i.flat? = some j)
      (he : i.effect? = some (a, b)) (hb : c.bound p.height) (hh : floor exits + a ≤ p.height)
      (hc : Flat.Spells c.code pc (i.markers p.selected ++ [j]))
      (hs : ∀ n, pc ≤ n → n < pc + (Flat.encode (i.markers p.selected ++ [j])).length →
        c.source n = some i)
      (hr : Laid c exits (pc + (Flat.encode (i.markers p.selected ++ [j])).length)
        (some ⟨p.height - a + b, i.forgetting (i.selecting p.selected)⟩) rest pc' q) :
      Laid c exits pc (some p) (.op o rest) pc' q
  | leave {exits : List Exit} {pc label : ℕ} {p : Point} {o : Op} {rest : Expr} {i : Instr}
      {x : Exit} (ho : o.resolve c.scope exits.length = some i)
      (hl : i.leaves? exits.length = some label) (hx : exits[label]? = some x)
      (hb : c.bound p.height) (ha : x.Admits (floor exits) p)
      (hc : Flat.Spells c.code pc (x.code c.scope .always pc p.height)) :
      Laid c exits pc (some p) (.op o rest)
        (pc + (Flat.encode (x.code c.scope .always pc p.height)).length) none
  | brIf {exits : List Exit} {pc pc' label h : ℕ} {p : Point} {q : Option Point} {o : Op}
      {rest : Expr} {x : Exit} (ho : o.resolve c.scope exits.length = some (.brIf label))
      (hx : exits[label]? = some x) (hb : c.bound p.height) (hh : p.height = h + 1)
      (ha : x.Admits (floor exits) ⟨h, p.selected⟩)
      (hc : Flat.Spells c.code pc (x.code c.scope .ifNonzero pc h))
      (hr : Laid c exits (pc + (Flat.encode (x.code c.scope .ifNonzero pc h)).length)
        (some ⟨h, p.selected⟩) rest pc' q) :
      Laid c exits pc (some p) (.op o rest) pc' q
  | brTable {exits : List Exit} {pc fallback h : ℕ} {labels : List ℕ} {p : Point} {o : Op}
      {rest : Expr} {xs : List Exit} {x : Exit}
      (ho : o.resolve c.scope exits.length = some (.brTable labels fallback))
      (hxs : List.Forall₂ (fun l x => exits[l]? = some x) labels xs)
      (hx : exits[fallback]? = some x) (hb : c.bound p.height) (hh : p.height = h + 1)
      (harity : ∀ y ∈ xs, y.arity = x.arity)
      (ha : ∀ y ∈ xs ++ [x], y.Admits (floor exits) ⟨h, p.selected⟩)
      (hc : Flat.Spells c.code pc [.brTable (UInt32.ofNat x.arity)
        (xs.map (·.entry c.scope h)) (x.entry c.scope h)]) :
      Laid c exits pc (some p) (.op o rest)
        (pc + (Flat.Instr.brTable (UInt32.ofNat x.arity) (xs.map (·.entry c.scope h))
          (x.entry c.scope h)).size) none
  | block {exits : List Exit} {pc pc₁ pc' base : ℕ} {p : Point} {q q' : Option Point}
      {after : Selection} {t : BlockType} {body rest : Expr} {type : FuncType}
      (ht : t.resolve c.scope.space = some type) (hh : p.height = base + type.params.length)
      (hf : floor exits ≤ base)
      (hbody : Laid c (⟨some pc₁, base, type.results.length, after⟩ :: exits) pc (some p) body
        pc₁ q)
      (hq : ∀ r ∈ q, (⟨base + type.results.length, after⟩ : Point) ≤ r)
      (hr : Laid c exits pc₁ (some ⟨base + type.results.length, after⟩) rest pc' q') :
      Laid c exits pc (some p) (.block t body rest) pc' q'
  | loop {exits : List Exit} {pc pc₁ pc' base : ℕ} {p : Point} {q q' : Option Point}
      {after : Selection} {t : BlockType} {body rest : Expr} {type : FuncType}
      (ht : t.resolve c.scope.space = some type) (hh : p.height = base + type.params.length)
      (hf : floor exits ≤ base)
      (hbody : Laid c (⟨some pc, base, type.params.length, .unknown⟩ :: exits) pc
        (some ⟨p.height, .unknown⟩) body pc₁ q)
      (hq : ∀ r ∈ q, (⟨base + type.results.length, after⟩ : Point) ≤ r)
      (hr : Laid c exits pc₁ (some ⟨base + type.results.length, after⟩) rest pc' q') :
      Laid c exits pc (some p) (.loop t body rest) pc' q'
  | ifThen {exits : List Exit} {pc pc₁ pc' base : ℕ} {p : Point} {q q' : Option Point}
      {after : Selection} {t : BlockType} {body rest : Expr} {type : FuncType}
      (ht : t.resolve c.scope.space = some type) (hio : type.params = type.results)
      (hb : c.bound p.height) (hh : p.height = base + type.params.length + 1)
      (hf : floor exits ≤ base)
      (hc : Flat.Spells c.code pc [.jumpUnless (UInt32.ofNat pc₁)])
      (hbody : Laid c (⟨some pc₁, base, type.results.length, after⟩ :: exits) (pc + 5)
        (some ⟨base + type.params.length, p.selected⟩) body pc₁ q)
      (hq : ∀ r ∈ q, (⟨base + type.results.length, after⟩ : Point) ≤ r)
      (hskip : after ≤ p.selected)
      (hr : Laid c exits pc₁ (some ⟨base + type.results.length, after⟩) rest pc' q') :
      Laid c exits pc (some p) (.ifThen t body rest) pc' q'
  | ifElse {exits : List Exit} {pc pc₁ pc₂ pc₃ pc' base : ℕ} {p : Point}
      {q q₁ q' : Option Point} {after : Selection} {t : BlockType} {body orElse rest : Expr}
      {type : FuncType}
      (ht : t.resolve c.scope.space = some type)
      (hb : c.bound p.height) (hh : p.height = base + type.params.length + 1)
      (hf : floor exits ≤ base)
      (hc : Flat.Spells c.code pc [.jumpUnless (UInt32.ofNat pc₂)])
      (hbody : Laid c (⟨some pc₃, base, type.results.length, after⟩ :: exits) (pc + 5)
        (some ⟨base + type.params.length, p.selected⟩) body pc₁ q)
      (hjump : SkipsElse c.code ⟨base + type.results.length, after⟩ q pc₁ pc₂ pc₃)
      (helse : Laid c (⟨some pc₃, base, type.results.length, after⟩ :: exits) pc₂
        (some ⟨base + type.params.length, p.selected⟩) orElse pc₃ q₁)
      (hq : ∀ r ∈ q₁, (⟨base + type.results.length, after⟩ : Point) ≤ r)
      (hr : Laid c exits pc₃ (some ⟨base + type.results.length, after⟩) rest pc' q') :
      Laid c exits pc (some p) (.ifElse t body orElse rest) pc' q'

/-- Where code can run, there is code: at the latest that of the end. -/
theorem Laid.lt {c : Listing} {exits : List Exit} {pc pc' : ℕ} {p q : Option Point} {e : Expr}
    (h : Laid c exits pc p e pc' q) (hp : p ≠ none)
    (hend : q ≠ none → pc' < (Flat.encode c.code).length) : pc < (Flat.encode c.code).length := by
  induction h with
  | done exits pc p => exact hend hp
  | dead exits pc e => exact absurd rfl hp
  | nop ho hr ih => exact ih hp hend
  | unreachable ho hc => exact hc.lt
  | plain ho hj he hb hh hc hs hr ih =>
    have hlt := hc.right.lt
    omega
  | @leave exits pc label p o rest i x ho hl hx hb ha hc =>
    obtain ⟨j, js, hcode⟩ := x.exists_code_eq_cons c.scope .always pc p.height
    rw [hcode] at hc
    exact hc.lt
  | @brIf exits pc pc' label h p q o rest x ho hx hb hh ha hc hr ih =>
    obtain ⟨j, js, hcode⟩ := x.exists_code_eq_cons c.scope .ifNonzero pc h
    rw [hcode] at hc
    exact hc.lt
  | brTable ho hxs hx hb hh harity ha hc => exact hc.lt
  | block ht hh hf hbody hq hr ihb ihr => exact ihb hp fun _ => ihr nofun hend
  | loop ht hh hf hbody hq hr ihb ihr => exact ihb nofun fun _ => ihr nofun hend
  | ifThen ht hio hb hh hf hc hbody hq hskip hr ihb ihr => exact hc.lt
  | ifElse ht hb hh hf hc hbody hjump helse hq hr ihb ihe ihr => exact hc.lt

end FlatWasm
