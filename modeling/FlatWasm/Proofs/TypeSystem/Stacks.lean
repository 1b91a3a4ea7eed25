import Mathlib
import FlatWasm.Proofs.Typing.Frames
import FlatWasm.Proofs.TypeSystem.Rules

/-!
# The stacks that a frame describes

A derivation of the type system picks one stack at every point of the code.  The walk over a body keeps a frame instead,
and where code cannot run a frame leaves much open: operands of type `bottom`, and any number of operands that are not
there at all.  So a frame describes many stacks, and the walk is right if it goes along with each of them.

* `describes_append`: a frame describes a stack exactly if it yields operands for the top of it and then describes the
  rest;
* `Takes.describes`: where proper types are asked for, operands that are taken were described;
* `describes_pushed`: where proper types have been pushed, they are on top of every stack that is described.

Stacks are listed from the top down here, as operands of a frame are.
-/

namespace FlatWasm.Typing

open Source

/-- An operand that is known as `t` may be a `u`. -/
def MayBe (t u : ValueType) : Prop :=
  t = .bottom ∨ t = u

/-- A frame describes a stack: the operands that are known are on top, and where code cannot run there may be others below
them. -/
def Frame.Describes (f : Frame) (stack : List ValueType) : Prop :=
  ∃ known unknown, stack = known ++ unknown ∧ List.Forall₂ MayBe f.operands known ∧
    (unknown ≠ [] → f.unreachable = true)

theorem MayBe.refl (t : ValueType) : MayBe t t :=
  .inr rfl

theorem forall₂_mayBe_refl (ts : List ValueType) : List.Forall₂ MayBe ts ts :=
  List.forall₂_same.mpr fun t _ => .refl t

/-- What an operand may be can be used where a larger type is asked for. -/
theorem matchesType_of_below {t u v : ValueType} (ht : MayBe t u) (hu : Below u v) :
    matchesType v t = true := by
  rw [matchesType]
  rcases ht with rfl | rfl
  · simp
  · rcases hu with rfl | rfl <;> simp

/-- Where a proper type is asked for, an operand matches if it may be of that type. -/
theorem mayBe_of_matchesType {t v : ValueType} (h : matchesType v t = true)
    (hv : v ≠ .bottom) : MayBe t v := by
  rw [matchesType, Bool.or_eq_true, Bool.or_eq_true, beq_iff_eq, beq_iff_eq, beq_iff_eq] at h
  rcases h with (rfl | rfl) | h
  · exact .refl _
  · exact .inl rfl
  · exact absurd h hv

theorem forall₂_matchesType {ts us vs : List ValueType} (ht : List.Forall₂ MayBe ts us)
    (hu : List.Forall₂ Below us vs) :
    List.Forall₂ (fun expected actual => matchesType expected actual = true) vs ts := by
  induction ht generalizing vs with
  | nil =>
    cases hu
    exact .nil
  | cons h _ ih =>
    cases hu with
    | cons h' hu => exact .cons (matchesType_of_below h h') (ih hu)

theorem forall₂_mayBe {ts vs : List ValueType} (hv : ∀ v ∈ vs, v ≠ .bottom)
    (h : List.Forall₂ (fun expected actual => matchesType expected actual = true) vs ts) :
    List.Forall₂ MayBe ts vs := by
  induction h with
  | nil => exact .nil
  | cons h _ ih =>
    obtain ⟨hv, hvs⟩ := List.forall_mem_cons.mp hv
    exact .cons (mayBe_of_matchesType h hv) (ih hvs)

theorem forall₂_below_refl (ts : List ValueType) : List.Forall₂ Below ts ts :=
  List.forall₂_same.mpr fun _ _ => .inl rfl

namespace Frame

variable {f : Frame}

theorem describes_operands (f : Frame) : f.Describes f.operands :=
  ⟨f.operands, [], by simp, forall₂_mayBe_refl _, fun h => absurd rfl h⟩

theorem describes_nil_iff : f.Describes [] ↔ f.operands = [] := by
  constructor
  · rintro ⟨known, unknown, h, hk, -⟩
    obtain ⟨rfl, -⟩ := List.append_eq_nil_iff.mp h.symm
    exact List.forall₂_nil_right_iff.mp hk
  · intro h
    rw [← h]
    exact f.describes_operands

theorem describes_markUnreachable (f : Frame) (stack : List ValueType) :
    f.markUnreachable.Describes stack :=
  ⟨[], stack, rfl, .nil, fun _ => rfl⟩

theorem yields_singleton_iff {t : ValueType} {rest : List ValueType} :
    f.Yields [t] rest ↔ f.pop = .ok (t, f.withOperands rest) := by
  rw [pop_eq_ok_iff]
  exact ⟨fun h => ⟨rfl, h⟩, fun h => h.2⟩

theorem describes_cons {v : ValueType} {stack : List ValueType} :
    f.Describes (v :: stack) ↔
      ∃ t rest, f.Yields [t] rest ∧ MayBe t v ∧ (f.withOperands rest).Describes stack := by
  simp only [yields_singleton_iff, pop]
  cases hops : f.operands with
  | nil =>
    constructor
    · rintro ⟨known, unknown, h, hk, hu⟩
      rw [hops] at hk
      cases hk
      have hf : f.unreachable = true := by
        refine hu ?_
        rw [← List.nil_append unknown, ← h]
        exact List.cons_ne_nil _ _
      refine ⟨.bottom, [], ?_, .inl rfl, [], stack, rfl, .nil, fun _ => hf⟩
      have hself : f.withOperands [] = f := by rw [← hops, withOperands_self]
      rw [if_pos hf, hself]
    · rintro ⟨t, rest, h, -, -⟩
      dsimp only at h
      split at h
      · next hf => exact ⟨[], v :: stack, rfl, by rw [hops]; exact .nil, fun _ => hf⟩
      · cases h
  | cons u us =>
    constructor
    · rintro ⟨known, unknown, h, hk, hu⟩
      rw [hops] at hk
      cases hk with
      | cons hv hk =>
        rw [List.cons_append, List.cons.injEq] at h
        obtain ⟨rfl, rfl⟩ := h
        exact ⟨u, us, rfl, hv, _, unknown, rfl, hk, hu⟩
    · rintro ⟨t, rest, h, hv, known, unknown, rfl, hk, hu⟩
      cases h
      exact ⟨v :: known, unknown, rfl, by rw [hops]; exact .cons hv hk, hu⟩

/-- **A frame describes a stack exactly if it yields operands for the top of it, and then describes the rest.** -/
theorem describes_append {top stack : List ValueType} :
    f.Describes (top ++ stack) ↔ ∃ taken rest, f.Yields taken rest ∧ List.Forall₂ MayBe taken top ∧
      (f.withOperands rest).Describes stack := by
  induction top generalizing f with
  | nil =>
    constructor
    · intro h
      exact ⟨[], f.operands, yields_nil.mpr rfl, .nil, h⟩
    · rintro ⟨taken, rest, hy, ht, h⟩
      cases ht
      rw [yields_nil.mp hy] at h
      exact h
  | cons v top ih =>
    rw [List.cons_append, describes_cons]
    constructor
    · rintro ⟨t, mid, hy, hv, h⟩
      obtain ⟨taken, rest, hys, ht, h'⟩ := ih.mp h
      exact ⟨t :: taken, rest, yields_cons.mpr ⟨mid, hy, hys⟩, .cons hv ht, h'⟩
    · rintro ⟨taken, rest, hy, ht, h⟩
      cases ht with
      | cons hv ht =>
        obtain ⟨mid, hy₁, hys⟩ := yields_cons.mp hy
        exact ⟨_, mid, hy₁, hv, ih.mpr ⟨_, rest, hys, ht, h⟩⟩

/-- Operands that are pushed go on top. -/
theorem Describes.push {rest stack ts us : List ValueType}
    (h : (f.withOperands rest).Describes stack) (hm : List.Forall₂ MayBe ts us) :
    (f.withOperands (ts ++ rest)).Describes (us ++ stack) := by
  obtain ⟨known, unknown, rfl, hk, hu⟩ := h
  exact ⟨us ++ known, unknown, by rw [List.append_assoc], List.rel_append hm hk, hu⟩

/-- **Proper types that have been pushed are on top of every stack that is described.** -/
theorem describes_pushed {ts rest stack : List ValueType} (ht : ∀ t ∈ ts, t ≠ .bottom) :
    (f.withOperands (ts ++ rest)).Describes stack ↔
      ∃ below, stack = ts ++ below ∧ (f.withOperands rest).Describes below := by
  constructor
  · intro h
    induction ts generalizing stack with
    | nil => exact ⟨stack, rfl, h⟩
    | cons t ts ih =>
      obtain ⟨ht, hts⟩ := List.forall_mem_cons.mp ht
      obtain ⟨known, unknown, rfl, hk, hu⟩ := h
      cases hk with
      | @cons _ u _ us hv hk =>
        obtain rfl : t = u := hv.resolve_left ht
        obtain ⟨below, h, hb⟩ := ih hts ⟨us, unknown, rfl, hk, hu⟩
        exact ⟨below, by rw [List.cons_append, h, List.cons_append], hb⟩
  · rintro ⟨below, rfl, h⟩
    exact h.push (forall₂_mayBe_refl ts)

/-- Where code can run, a frame with proper operands describes one stack. -/
theorem Describes.eq_operands {stack : List ValueType} (h : f.Describes stack)
    (hf : f.unreachable = false) (ho : ∀ t ∈ f.operands, t ≠ .bottom) : stack = f.operands := by
  have hself : f = f.withOperands (f.operands ++ []) := by rw [List.append_nil, withOperands_self]
  rw [hself, describes_pushed ho] at h
  obtain ⟨below, rfl, known, unknown, rfl, hk, hu⟩ := h
  cases hk
  have hnil : unknown = [] := by
    by_contra hne
    exact Bool.false_ne_true (hf.symm.trans (hu hne))
  rw [hnil, List.append_nil, List.append_nil]

/-- **Where proper types are asked for, operands that are taken were described.** -/
theorem Takes.describes {ts taken rest stack : List ValueType} (h : f.Takes ts taken rest)
    (ht : ∀ t ∈ ts, t ≠ .bottom) (hr : (f.withOperands rest).Describes stack) :
    f.Describes (ts ++ stack) :=
  describes_append.mpr ⟨taken, rest, h.1, forall₂_mayBe ht h.2, hr⟩

/-- A frame that describes operands takes them where larger types are asked for. -/
theorem Describes.exists_takes {us ts stack : List ValueType} (h : f.Describes (us ++ stack))
    (hu : List.Forall₂ Below us ts) :
    ∃ taken rest, f.Takes ts taken rest ∧ List.Forall₂ MayBe taken us ∧
      (f.withOperands rest).Describes stack := by
  obtain ⟨taken, rest, hy, hm, hr⟩ := describes_append.mp h
  exact ⟨taken, rest, ⟨hy, forall₂_matchesType hm hu⟩, hm, hr⟩

end Frame

end FlatWasm.Typing
