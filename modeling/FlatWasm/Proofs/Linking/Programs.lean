import Mathlib
import FlatWasm.Linking.Instantiate

/-!
# How the steps of instantiation end

A step of instantiation changes the pool and the log, and a failure keeps what was changed.  `Link.Ends` says of a step and
of the state it starts from how it can end: in one way where it answers and in another where it fails.  The rules below
follow the constructs that the steps are written with.  The assertion about failures is the same for all parts of a step, so
it is a parameter of every rule: whoever states how a step ends chooses what is to be known of a failure, and owes one proof for
each place where the step can fail.

The rule for a pass over a list takes an invariant that names the items seen so far.
-/

namespace FlatWasm

namespace Link

variable {α β : Type} {w w' : World}

/-! ## Runs -/

theorem run_bind_of_ok {x : Link α} {f : α → Link β} {a : α} (h : x.run w = (.ok a, w')) :
    (x >>= f).run w = (f a).run w' := by
  show ExceptT.bindCont f (x.run w).1 (x.run w).2 = _
  rw [h]
  rfl

theorem run_bind_of_error {x : Link α} {f : α → Link β} {e : Failure LinkError}
    (h : x.run w = (.error e, w')) : (x >>= f).run w = (.error e, w') := by
  show ExceptT.bindCont f (x.run w).1 (x.run w).2 = _
  rw [h]
  rfl

theorem run_get (w : World) : (get : Link World).run w = (.ok w, w) :=
  rfl

theorem run_ofPool_of_ok {f : Pool → Except (Failure LinkError) α} {a : α}
    (h : f w.pool = .ok a) : (ofPool f).run w = (.ok a, w) := by
  rw [ofPool, run_bind_of_ok (run_get w), h]
  rfl

theorem run_ofPool_of_error {f : Pool → Except (Failure LinkError) α} {e : Failure LinkError}
    (h : f w.pool = .error e) : (ofPool f).run w = (.error e, w) := by
  rw [ofPool, run_bind_of_ok (run_get w), h]
  rfl

/-! ## Rules -/

/-- From `w` the step answers and ends with `Q`, or fails and ends with `fails`. -/
structure Ends (x : Link α) (w : World) (Q : α → World → Prop)
    (fails : Failure LinkError → World → Prop) : Prop where
  answer : ∀ a w', x.run w = (.ok a, w') → Q a w'
  failure : ∀ e w', x.run w = (.error e, w') → fails e w'

variable {fails : Failure LinkError → World → Prop}

/-- A step whose run is known to answer. -/
theorem ends_of_run {x : Link α} {Q : α → World → Prop} {a : α}
    (h : x.run w = (.ok a, w')) (hQ : Q a w') : x.Ends w Q fails := by
  refine ⟨fun a₁ w₁ h₁ => ?_, fun e w₁ h₁ => ?_⟩
  · cases h.symm.trans h₁
    exact hQ
  · cases h.symm.trans h₁

theorem ends_pure {Q : α → World → Prop} {a : α} (h : Q a w) :
    Ends (pure a) w Q fails :=
  ends_of_run rfl h

theorem ends_throw {Q : α → World → Prop} {e : Failure LinkError} (h : fails e w) :
    Ends (throw e) w Q fails := by
  refine ⟨fun a w' hr => ?_, fun e' w' hr => ?_⟩
  · cases hr
  · cases hr
    exact h

theorem ends_event {Q : Unit → World → Prop} {e : Event}
    (h : Q () { w with log := e :: w.log }) : (event e).Ends w Q fails :=
  ends_of_run rfl h

theorem ends_setPool {Q : Unit → World → Prop} {pool : Pool} (h : Q () { w with pool }) :
    (setPool pool).Ends w Q fails :=
  ends_of_run rfl h

theorem ends_alloc {Q : Address → World → Prop} {f : Pool → Address × Pool}
    (h : Q (f w.pool).1 { w with pool := (f w.pool).2 }) : (alloc f).Ends w Q fails :=
  ends_of_run rfl h

theorem ends_get {Q : World → World → Prop} (h : Q w w) :
    Ends (get : Link World) w Q fails :=
  ends_of_run (run_get w) h

theorem ends_ofPool {Q : α → World → Prop} {f : Pool → Except (Failure LinkError) α}
    (hok : ∀ a, f w.pool = .ok a → Q a w) (herror : ∀ e, f w.pool = .error e → fails e w) :
    (ofPool f).Ends w Q fails := by
  cases hf : f w.pool with
  | ok a => exact ends_of_run (run_ofPool_of_ok hf) (hok a hf)
  | error e =>
    have hrun := run_ofPool_of_error hf
    refine ⟨fun a w' hr => ?_, fun e' w' hr => ?_⟩
    · cases hrun.symm.trans hr
    · cases hrun.symm.trans hr
      exact herror e hf

theorem Ends.bind {x : Link α} {f : α → Link β} {mid : α → World → Prop}
    {Q : β → World → Prop} (hx : x.Ends w mid fails)
    (hf : ∀ a w', mid a w' → (f a).Ends w' Q fails) : (x >>= f).Ends w Q fails := by
  rcases hr : x.run w with ⟨r, w₁⟩
  cases r with
  | error e =>
    have hrun := run_bind_of_error (f := f) hr
    refine ⟨fun b w' hb => ?_, fun e' w' hb => ?_⟩
    · cases hrun.symm.trans hb
    · cases hrun.symm.trans hb
      exact hx.failure e w₁ hr
  | ok a =>
    have hrun := run_bind_of_ok (f := f) hr
    have hnext := hf a w₁ (hx.answer a w₁ hr)
    exact ⟨fun b w' hb => hnext.answer b w' (hrun.symm.trans hb),
      fun e w' hb => hnext.failure e w' (hrun.symm.trans hb)⟩

theorem Ends.mono {x : Link α} {Q Q' : α → World → Prop} (hx : x.Ends w Q fails)
    (h : ∀ a w', Q a w' → Q' a w') : x.Ends w Q' fails :=
  ⟨fun a w' ha => h a w' (hx.answer a w' ha), hx.failure⟩

/-- What holds of the items that a pass has seen, of the value it has come to and of the state, holds of all items at its end.
The items come with their positions. -/
theorem ends_foldlM_zipIdx {items : List α} {step : β → α × ℕ → Link β}
    {I : List α → β → World → Prop} {b : β} (hb : I [] b w)
    (hstep : ∀ seen a rest b w, items = seen ++ a :: rest → I seen b w →
      (step b (a, seen.length)).Ends w (I (seen ++ [a])) fails) :
    (items.zipIdx.foldlM step b).Ends w (I items) fails := by
  suffices H : ∀ (left seen : List α) (b : β) (w : World), items = seen ++ left → I seen b w →
      ((left.zipIdx seen.length).foldlM step b).Ends w (I items) fails from
    H items [] b w rfl hb
  intro left
  induction left with
  | nil =>
    intro seen b w hitems hb
    rw [List.append_nil] at hitems
    exact ends_pure (hitems ▸ hb)
  | cons a left ih =>
    intro seen b w hitems hb
    rw [List.zipIdx_cons, List.foldlM_cons]
    refine (hstep seen a left b w hitems hb).bind fun b' w' hb' => ?_
    have hlength : (seen ++ [a]).length = seen.length + 1 := List.length_append
    rw [← hlength]
    exact ih (seen ++ [a]) b' w' (by rw [hitems, List.append_cons]) hb'

/-- The same for a pass over the numbers below `n`, whose steps answer nothing. -/
theorem ends_forM_range {n : ℕ} {step : ℕ → Link Unit} {I : ℕ → World → Prop} (h₀ : I 0 w)
    (hstep : ∀ i w, i < n → I i w → (step i).Ends w (fun _ => I (i + 1)) fails) :
    ((List.range n).forM step).Ends w (fun _ => I n) fails := by
  suffices H : ∀ (left i : ℕ) (w : World), i + left = n → I i w →
      ((List.range' i left).forM step).Ends w (fun _ => I n) fails by
    rw [List.range_eq_range']
    exact H n 0 w (Nat.zero_add n) h₀
  intro left
  induction left with
  | zero =>
    intro i w hn hi
    exact ends_pure (hn ▸ hi)
  | succ left ih =>
    intro i w hn hi
    have hlt : i < n := by omega
    exact (hstep i w hlt hi).bind fun _ w' hi' => ih (i + 1) w' (by omega) hi'

end Link

end FlatWasm
