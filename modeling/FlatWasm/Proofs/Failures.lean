import Mathlib
import FlatWasm.Defect
import FlatWasm.Proofs.TypeSystem.Validated

/-!
# How computations end

A computation answers, refuses, or meets a defect.  This module has the laws by which the answers and the failures of a
computation are told from those of its parts, for everything that computations are put together from.

For answers the laws are equivalences.  For failures there is one predicate: `FailsOnly P` says that a computation meets no
defect and that each of its refusals satisfies `P`.  It passes from the parts to the whole, and the part that comes second may
use what the first has answered.  `NoDefect` is the case in which nothing is said about refusals.
-/

namespace FlatWasm

/-! ## Answers -/

section Answers

variable {ε ε' α β : Type}

theorem orRefuse_eq_ok_iff {f : ε' → ε} {x : Except ε' α} {a : α} :
    orRefuse f x = .ok a ↔ x = .ok a :=
  Except.mapError_eq_ok_iff

theorem present_eq_ok_iff {x : Option α} {a : α} :
    (present x : Except (Failure ε) α) = .ok a ↔ x = some a := by
  cases x <;> simp [present]

theorem inBounds_eq_ok_iff {x : Option α} {a : α} :
    (inBounds x : Except (Failure ε) α) = .ok a ↔ x = some a := by
  cases x <;> simp [inBounds]

/-- A list of computations succeeds exactly if each of them does. -/
theorem Except.mapM_eq_ok_iff {f : α → Except ε β} {as : List α} {bs : List β} :
    as.mapM f = .ok bs ↔ List.Forall₂ (fun a b => f a = .ok b) as bs := by
  induction as generalizing bs with
  | nil =>
    rw [List.mapM_nil, List.forall₂_nil_left_iff]
    constructor
    · intro h
      cases h
      rfl
    · rintro rfl
      rfl
  | cons a as ih =>
    rw [List.mapM_cons, Except.bind_eq_ok_iff, List.forall₂_cons_left_iff]
    constructor
    · rintro ⟨b, hb, h⟩
      obtain ⟨bs', hbs, h⟩ := Except.bind_eq_ok_iff.mp h
      cases h
      exact ⟨b, bs', hb, ih.mp hbs, rfl⟩
    · rintro ⟨b, bs', hb, hbs, rfl⟩
      exact ⟨b, hb, Except.bind_eq_ok_iff.mpr ⟨bs', ih.mpr hbs, rfl⟩⟩

/-- Computations that each answer with `P` answer together, with `P` of every answer. -/
theorem Except.exists_mapM {f : α → Except ε β} {P : β → Prop} {as : List α}
    (h : ∀ a ∈ as, ∃ b, f a = .ok b ∧ P b) : ∃ bs, as.mapM f = .ok bs ∧ ∀ b ∈ bs, P b := by
  induction as with
  | nil => exact ⟨[], rfl, List.forall_mem_nil _⟩
  | cons a as ih =>
    obtain ⟨⟨b, hb, hP⟩, has⟩ := List.forall_mem_cons.mp h
    obtain ⟨bs, hbs, hall⟩ := ih has
    refine ⟨b :: bs, ?_, List.forall_mem_cons.mpr ⟨hP, hall⟩⟩
    rw [Except.mapM_eq_ok_iff] at hbs ⊢
    exact .cons hb hbs

theorem exists_getElem?_of_forall₂ {R : α → β → Prop} {as : List α} {bs : List β}
    (h : List.Forall₂ R as bs) {i : ℕ} {b : β} (hb : bs[i]? = some b) :
    ∃ a, as[i]? = some a ∧ R a b := by
  induction h generalizing i with
  | nil => cases hb
  | @cons a b' as bs hab _ ih =>
    cases i with
    | zero =>
      cases hb
      exact ⟨a, rfl, hab⟩
    | succ i => exact ih hb

/-- What holds of the items that a pass has seen holds of all items at its end. -/
theorem Except.foldlM_seen {I : List α → β → Prop} {step : β → α → Except ε β}
    {items : List α} {b b' : β}
    (hstep : ∀ seen a b b', a ∈ items → I seen b → step b a = .ok b' → I (seen ++ [a]) b')
    (h : items.foldlM step b = .ok b') (hb : I [] b) : I items b' := by
  suffices H : ∀ (left seen : List α) (b : β), (∀ a ∈ left, a ∈ items) →
      left.foldlM step b = .ok b' → I seen b → I (seen ++ left) b' from
    H items [] b (fun _ ha => ha) h hb
  intro left
  induction left with
  | nil =>
    intro seen b _ h hb
    cases h
    rwa [List.append_nil]
  | cons a left ih =>
    intro seen b hmem h hb
    rw [List.foldlM_cons] at h
    obtain ⟨b₁, h₁, h'⟩ := Except.bind_eq_ok_iff.mp h
    obtain ⟨ha, hleft⟩ := List.forall_mem_cons.mp hmem
    rw [List.append_cons]
    exact ih (seen ++ [a]) b₁ hleft h' (hstep seen a b b₁ ha hb h₁)

end Answers

/-! ## Failures -/

section Failures

variable {ε ε' α β : Type} {P Q : ε → Prop}

/-- A computation that meets no defect, and whose refusals satisfy `P`. -/
def FailsOnly (P : ε → Prop) (x : Except (Failure ε) α) : Prop :=
  ∀ failure, x = .error failure → ∃ e, failure = .error e ∧ P e

/-- A computation that answers or refuses. -/
abbrev NoDefect (x : Except (Failure ε) α) : Prop :=
  FailsOnly (fun _ => True) x

theorem failsOnly_ok (a : α) : FailsOnly P (.ok a) := by
  intro failure h
  cases h

theorem failsOnly_refuse {e : ε} (h : P e) : FailsOnly P (refuse e : Except (Failure ε) α) := by
  intro failure hf
  cases hf
  exact ⟨e, rfl, h⟩

theorem failsOnly_orRefuse {f : ε' → ε} {x : Except ε' α} (h : ∀ e, x = .error e → P (f e)) :
    FailsOnly P (orRefuse f x) := by
  intro failure hf
  cases x with
  | error e =>
    cases hf
    exact ⟨f e, rfl, h e rfl⟩
  | ok a => cases hf

theorem failsOnly_orDefect {x : Except Defect α} {a : α} (h : x = .ok a) :
    FailsOnly P (orDefect x) := by
  rw [h]
  exact failsOnly_ok a

theorem failsOnly_present {x : Option α} {a : α} (h : x = some a) : FailsOnly P (present x) := by
  rw [h]
  exact failsOnly_ok a

theorem failsOnly_inBounds {x : Option α} {a : α} (h : x = some a) :
    FailsOnly P (inBounds x) := by
  rw [h]
  exact failsOnly_ok a

theorem noDefect_refuse (e : ε) : NoDefect (refuse e : Except (Failure ε) α) :=
  failsOnly_refuse trivial

theorem noDefect_orRefuse (f : ε' → ε) (x : Except ε' α) : NoDefect (orRefuse f x) :=
  failsOnly_orRefuse fun _ _ => trivial

theorem FailsOnly.mono {x : Except (Failure ε) α} (hx : FailsOnly P x) (h : ∀ e, P e → Q e) :
    FailsOnly Q x := by
  intro failure hf
  obtain ⟨e, rfl, he⟩ := hx failure hf
  exact ⟨e, rfl, h e he⟩

/-- What comes next may use what the first computation has answered. -/
theorem FailsOnly.bind {x : Except (Failure ε) α} {f : α → Except (Failure ε) β}
    (hx : FailsOnly P x) (hf : ∀ a, x = .ok a → FailsOnly P (f a)) : FailsOnly P (x >>= f) := by
  intro failure h
  cases hxa : x with
  | error e =>
    rw [hxa] at h
    cases h
    exact hx failure hxa
  | ok a =>
    rw [hxa] at h
    exact hf a hxa failure h

theorem FailsOnly.mapError {P : ε → Prop} {f : ε' → ε} {x : Except (Failure ε') α}
    (hx : FailsOnly (fun e => P (f e)) x) : FailsOnly P (x.mapError (Failure.map f)) := by
  intro failure h
  cases hxa : x with
  | error e =>
    obtain ⟨cause, rfl, hcause⟩ := hx e hxa
    rw [hxa] at h
    cases h
    exact ⟨f cause, rfl, hcause⟩
  | ok a =>
    rw [hxa] at h
    cases h

theorem FailsOnly.forM {as : List α} {f : α → Except (Failure ε) Unit}
    (h : ∀ a ∈ as, FailsOnly P (f a)) : FailsOnly P (as.forM f) := by
  induction as with
  | nil => exact failsOnly_ok ()
  | cons a as ih =>
    obtain ⟨ha, has⟩ := List.forall_mem_cons.mp h
    exact ha.bind fun _ _ => ih has

theorem FailsOnly.mapM {as : List α} {f : α → Except (Failure ε) β}
    (h : ∀ a ∈ as, FailsOnly P (f a)) : FailsOnly P (as.mapM f) := by
  induction as with
  | nil => exact failsOnly_ok []
  | cons a as ih =>
    obtain ⟨ha, has⟩ := List.forall_mem_cons.mp h
    rw [List.mapM_cons]
    exact ha.bind fun _ _ => (ih has).bind fun _ _ => failsOnly_ok _

theorem FailsOnly.foldlM {as : List α} {step : β → α → Except (Failure ε) β}
    (h : ∀ a ∈ as, ∀ b, FailsOnly P (step b a)) (b : β) : FailsOnly P (as.foldlM step b) := by
  induction as generalizing b with
  | nil => exact failsOnly_ok b
  | cons a as ih =>
    obtain ⟨ha, has⟩ := List.forall_mem_cons.mp h
    rw [List.foldlM_cons]
    exact (ha b).bind fun b' _ => ih has b'

theorem FailsOnly.ne_defect {x : Except (Failure ε) α} (h : FailsOnly P x) (d : Defect) :
    x ≠ .error (.defect d) := by
  intro hx
  obtain ⟨e, he, -⟩ := h _ hx
  cases he

/-- A computation without defects answers or refuses. -/
theorem FailsOnly.ok_or_refused {x : Except (Failure ε) α} (h : FailsOnly P x) :
    (∃ e, x = .error (.error e) ∧ P e) ∨ ∃ a, x = .ok a := by
  cases hx : x with
  | ok a => exact .inr ⟨a, rfl⟩
  | error failure =>
    obtain ⟨e, rfl, he⟩ := h failure hx
    exact .inl ⟨e, rfl, he⟩

end Failures

end FlatWasm
