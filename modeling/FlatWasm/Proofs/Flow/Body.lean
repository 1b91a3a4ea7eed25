import Mathlib
import FlatWasm.Proofs.Flow.Frames

/-!
# The code of a whole function

Every byte of the code of a body was emitted by one instruction of the body.  `Function.emitter?` finds it: code only
grows along the walk, so the ranges of two instructions do not overlap.  With this, the code of a function is a
`Listing`, and `Function.exists_isLaid` says that the body is laid out in it, between the code that makes the locals and
the return at the end.
-/

namespace FlatWasm

open Source Lowering

/-! ## Which instruction emitted a byte -/

/-- The byte at an offset was emitted by the instruction of a visit. -/
def Visit.Emitted (v : Visit) (n : ℕ) : Prop :=
  v.before.low.code.size ≤ n ∧ n < v.after.code.size

instance (v : Visit) (n : ℕ) : Decidable (v.Emitted n) :=
  inferInstanceAs (Decidable (_ ∧ _))

namespace Subject

variable {subject : Subject} {x : Stage} {bytes : List UInt8}

/-- The walk stops, or comes by an instruction that is accepted and lowered. -/
theorem trail_cases (subject : Subject) (x : Stage) (bytes : List UInt8) :
    subject.trail x bytes = [] ∨ ∃ op bs a low, bytes = op :: bs ∧
      x.frames.accept subject.scope op bs = .ok a ∧
      x.low.step subject.scope x.frames a.instr = .ok low := by
  cases bytes with
  | nil => exact .inl (by rw [trail])
  | cons op bs =>
    cases ha : x.frames.accept subject.scope op bs with
    | error e =>
      left
      rw [trail]
      split
      · rfl
      · next ha' =>
        rw [ha] at ha'
        cases ha'
    | ok a =>
      cases hs : x.low.step subject.scope x.frames a.instr with
      | ok low => exact .inr ⟨op, bs, a, low, rfl, ha, hs⟩
      | error d =>
        left
        rw [trail]
        split
        · rfl
        · next ha' =>
          rw [ha] at ha'
          cases ha'
          rw [hs]

/-- **What every step of the walk keeps holds wherever it comes by.** -/
theorem forall_mem_trail {I : Stage → List UInt8 → Prop} {Q : Visit → Prop}
    (hstep : ∀ x op bs a low, I x (op :: bs) → x.frames.accept subject.scope op bs = .ok a →
      x.low.step subject.scope x.frames a.instr = .ok low →
      Q ⟨op :: bs, x, a.instr, low⟩ ∧ ∀ frames, a.next = some frames → I ⟨frames, low⟩ a.rest)
    (hI : I x bytes) : ∀ v ∈ subject.trail x bytes, Q v := by
  induction hn : bytes.length using Nat.strong_induction_on generalizing x bytes with
  | _ n ih =>
    subst hn
    rcases trail_cases subject x bytes with h | ⟨op, bs, a, low, rfl, ha, hs⟩
    · rw [h]
      simp
    · obtain ⟨hq, hnext⟩ := hstep x op bs a low hI ha hs
      rw [trail_cons ha hs, List.forall_mem_cons]
      refine ⟨hq, ?_⟩
      have hlt : a.rest.length < (op :: bs).length :=
        Nat.lt_succ_of_le (Typing.State.suffix_of_accept ha).length_le
      cases hf : a.next with
      | none => simp
      | some frames => exact ih _ hlt (hnext frames hf) rfl

/-- An instruction that the walk comes by is a token of the body, resolved. -/
theorem exists_token_of_mem_trail : ∀ v ∈ subject.trail x bytes,
    ∃ (t : Token) (bs : List UInt8), t.Encoded bs ∧ bs <+: v.input ∧ v.input <:+ bytes ∧
      t.resolve subject.scope v.before.frames.depth = some v.instr := by
  refine forall_mem_trail (I := fun _ rest => rest <:+ bytes) ?_ (List.suffix_refl bytes)
  intro x op bs a low hI ha hs
  refine ⟨?_, fun frames _ => ?_⟩
  · have hread := ha
    rw [Typing.State.accept] at hread
    cases hr : Instr.read subject.scope x.frames.depth op bs with
    | error e =>
      rw [hr] at hread
      cases hread
    | ok p =>
      obtain ⟨t, ts, ht, hbs⟩ := Instr.exists_token_of_read hr
      subst hbs
      exact ⟨t, op :: ts, ht, ⟨p.2, rfl⟩, hI, ((Typing.State.accept_eq_ok_iff ht).mp ha).1⟩
  · exact (Typing.State.suffix_of_accept ha).trans ((List.suffix_cons op bs).trans hI)

/-- Along the walk, code only grows. -/
theorem size_le_of_mem_trail (hs : x.low.Sound) :
    ∀ v ∈ subject.trail x bytes, x.low.code.size ≤ v.before.low.code.size := by
  refine forall_mem_trail
    (I := fun y _ => y.low.Sound ∧ x.low.code.size ≤ y.low.code.size) ?_ ⟨hs, Nat.le_refl _⟩
  rintro y op bs a low ⟨hsound, hle⟩ - hlow
  obtain ⟨s', hs', hgrows⟩ := hsound.exists_step subject.scope y.frames a.instr
  cases hs'.symm.trans hlow
  exact ⟨hle, fun _ _ => ⟨hgrows.1, Nat.le_trans hle hgrows.2⟩⟩

theorem pairwise_trail (hs : x.low.Sound) : (subject.trail x bytes).Pairwise fun v w =>
    v.after.code.size ≤ w.before.low.code.size := by
  induction hn : bytes.length using Nat.strong_induction_on generalizing x bytes with
  | _ n ih =>
    subst hn
    rcases trail_cases subject x bytes with h | ⟨op, bs, a, low, rfl, ha, hlow⟩
    · rw [h]
      exact .nil
    · obtain ⟨s', hs', hgrows⟩ := hs.exists_step subject.scope x.frames a.instr
      cases hs'.symm.trans hlow
      rw [trail_cons ha hlow, List.pairwise_cons]
      have hlt : a.rest.length < (op :: bs).length :=
        Nat.lt_succ_of_le (Typing.State.suffix_of_accept ha).length_le
      cases a.next with
      | none => exact ⟨by simp, .nil⟩
      | some frames => exact ⟨size_le_of_mem_trail hgrows.1, ih _ hlt hgrows.1 rfl⟩

end Subject

namespace Function

variable {f : Function} {space : IndexSpace}

/-- The instruction that emitted the byte at an offset. -/
def emitter? (f : Function) (space : IndexSpace) (n : ℕ) : Option Visit :=
  (f.trail space).find? fun v => v.Emitted n

theorem sound_start (f : Function) : f.start.low.Sound := by
  have hempty : State.Sound {} := ⟨Flat.Code.sized_empty, by intro l hl; cases hl⟩
  rw [start, prologue]
  split
  · exact hempty
  · exact hempty.emit _

/-- A byte has one emitter. -/
theorem emitter?_eq_some_iff {n : ℕ} {v : Visit} :
    f.emitter? space n = some v ↔ v ∈ f.trail space ∧ v.Emitted n := by
  have hunique : ∀ v ∈ f.trail space, ∀ w ∈ f.trail space, v.Emitted n → w.Emitted n → v = w := by
    have hpair : (f.trail space).Pairwise fun v w => v.after.code.size ≤ w.before.low.code.size :=
      Subject.pairwise_trail f.sound_start
    rw [List.pairwise_iff_getElem] at hpair
    intro v hv w hw hvn hwn
    obtain ⟨i, hi, rfl⟩ := List.mem_iff_getElem.mp hv
    obtain ⟨j, hj, rfl⟩ := List.mem_iff_getElem.mp hw
    rcases Nat.lt_trichotomy i j with hij | rfl | hij
    · exact absurd (Nat.lt_of_lt_of_le hvn.2 (Nat.le_trans (hpair i j hi hj hij) hwn.1))
        (Nat.lt_irrefl _)
    · rfl
    · exact absurd (Nat.lt_of_lt_of_le hwn.2 (Nat.le_trans (hpair j i hj hi hij) hvn.1))
        (Nat.lt_irrefl _)
  have hfound : ∀ {w}, f.emitter? space n = some w → w ∈ f.trail space ∧ w.Emitted n := by
    intro w hw
    have hp := List.find?_some hw
    exact ⟨List.mem_of_find?_eq_some hw, by simpa using hp⟩
  refine ⟨hfound, ?_⟩
  rintro ⟨hv, hn⟩
  cases hw : f.emitter? space n with
  | none => exact absurd hn (by simpa using List.find?_eq_none.mp hw v hv)
  | some w => rw [hunique w (hfound hw).1 v hv (hfound hw).2 hn]

/-- The code of a function, with what `bound` says of its heights. -/
def listing (f : Function) (space : IndexSpace) (code : Flat.Code) (bound : ℕ → Prop) : Listing where
  code := code.list
  scope := (f.subject space).scope
  source n := (f.emitter? space n).map Visit.instr
  bound := bound

theorem ready_start (f : Function) (space : IndexSpace) :
    f.start.Ready (f.subject space).scope := by
  refine ⟨f.sound_start, rfl, ?_, rfl⟩
  rw [start, prologue]
  split <;> rfl

theorem explains_of_mem_trail {code : Flat.Code} {bound : ℕ → Prop}
    (hbound : ∀ v ∈ f.trail space, v.before.frames.live = true → bound v.before.height) :
    ∀ v ∈ f.trail space, (f.listing space code bound).Explains v := by
  intro v hv
  refine ⟨fun n hn hn' => ?_, hbound v hv⟩
  show (f.emitter? space n).map Visit.instr = _
  rw [emitter?_eq_some_iff.mpr ⟨hv, hn, hn'⟩]
  rfl

/-- What it means for a body to stand in the code of a function. -/
structure IsLaid (f : Function) (c : Listing) (e : Expr) (pc : ℕ) (q : Option Point) : Prop where
  /-- First come the locals. -/
  locals : f.locals.isEmpty = false → Flat.Spells c.code 0 [.locals (UInt32.ofNat f.locals.length)]
  body : Laid c [⟨none, 0, f.type.results.length, .unknown⟩]
    (if f.locals.isEmpty then 0 else 5) (some ⟨0, .unknown⟩) e pc q
  /-- Where the body runs through to its end, it returns. -/
  height : ∀ r ∈ q, r.height = f.type.results.length ∧ c.bound r.height
  last : ∀ r ∈ q, Flat.Spells c.code pc
    [.ret (UInt32.ofNat f.type.results.length) (0 + c.scope.localCount)]
  /-- Nothing comes after that. -/
  length : (Flat.encode c.code).length = pc + if q.isSome then 9 else 0

/-- **The body of a function is laid out in its code.** -/
theorem exists_isLaid {e : Expr} {code : Flat.Code} {bound : ℕ → Prop}
    (he : e.IsBody f.body.bytes)
    (hl : (f.subject space).lower f.start.frames f.start.low f.body.bytes = .ok code)
    (hbound : ∀ v ∈ f.trail space, v.before.frames.live = true → bound v.before.height) :
    ∃ pc q, f.IsLaid (f.listing space code bound) e pc q := by
  have hready : f.start.Ready (f.listing space code bound).scope := f.ready_start space
  obtain ⟨y, hy, ⟨taken, hclosed⟩, low, hlow, hcode, _, hend⟩ :=
    finishes_of_lower he hl (explains_of_mem_trail hbound)
  obtain ⟨hbelow, hsame⟩ := hy.same
  obtain ⟨hfollows, hlaid⟩ :=
    Lowers.lays (show Lowers (f.listing space code bound).scope _ e f.start y from hy) hready
  have hlabels : y.low.labels = [] := by
    have hlen := hfollows.labels.length_eq
    rw [hready.labels] at hlen
    exact List.eq_nil_of_length_eq_zero hlen.symm
  -- the last mark returns, and leaves finished code
  rw [State.step_endMark (hsame.dead.trans rfl), State.leave_function _ _ _ hlabels] at hlow
  have hlow' := (Except.ok.inj hlow).symm
  have hfinished : code.list = y.low.code.list ++ (if y.frames.live then
      [.ret (UInt32.ofNat f.type.results.length) (0 + (f.subject space).scope.localCount)]
      else []) := by
    rw [← hcode, hlow']
    split
    · exact Flat.Code.list_emit _ _
    · exact (List.append_nil _).symm
  have hc : Completes code.list [] y.low := by
    have hnone : pending y.low.labels [] = fun _ => none := by
      rw [hlabels]
      rfl
    exact ⟨by rw [hlabels]; exact .nil, _, by rw [hnone, Flat.Code.retarget_none]; exact hfinished⟩
  obtain ⟨hcx, hbody⟩ := hlaid [] hc
  obtain ⟨tail, htail⟩ := hcx.filled
  have hstart : f.start.point = some ⟨0, .unknown⟩ := by
    rw [start, prologue]
    split <;> rfl
  have hsize : f.start.low.code.size = if f.locals.isEmpty then 0 else 5 := by
    rw [start, prologue]
    split <;> rfl
  have hheight : y.frames.live = true → y.height = f.type.results.length := by
    intro hlive
    have hlen := hclosed.length_operands (live_eq_true_iff.mp hlive).1
    have houtputs : y.frames.top.outputs = f.type.results := hsame.outputs
    rw [List.length_reverse, houtputs, List.length_nil, Nat.add_zero] at hlen
    rw [Stage.height_eq, hbelow, hlen]
    rfl
  rw [hstart, hsize] at hbody
  refine ⟨y.low.code.size, y.point, ?_, hbody, ?_, ?_, ?_⟩
  · intro hne
    refine ⟨[], tail, ?_, rfl⟩
    rw [start, prologue, hne] at htail
    exact htail
  · intro r hr
    rw [Stage.point] at hr
    split at hr
    · next hlive =>
      cases hr
      exact ⟨hheight hlive, hend.bound hlive⟩
    · cases hr
  · intro r hr
    rw [Stage.point] at hr
    split at hr
    · next hlive =>
      rw [if_pos hlive] at hfinished
      exact ⟨y.low.code.list, [], hfinished, hfollows.sound.sized.symm⟩
    · cases hr
  · show (Flat.encode code.list).length = _
    rw [hfinished, Flat.length_encode_append, Stage.point, hfollows.sound.sized]
    split <;> rfl

theorem length_localTypes (f : Function) :
    f.localTypes.length = f.type.params.length + f.locals.length := by
  rw [localTypes, Locals.length_eq, Locals.toList_prependAll, List.length_append,
    Locals.length_eq]

/-- Words are large enough: for the parameters and locals, for the heights of the operands at every instruction that can run,
which are on one stack with the locals below them, and for the offsets of the code. -/
structure FitsWords (f : Function) (space : IndexSpace) (code : List UInt8) : Prop where
  locals : f.localCount < 2 ^ 32
  heights : ∀ v ∈ f.trail space, v.before.frames.live = true →
    f.localCount + v.before.height < 2 ^ 32
  size : code.length < 2 ^ 32

end Function

end FlatWasm
