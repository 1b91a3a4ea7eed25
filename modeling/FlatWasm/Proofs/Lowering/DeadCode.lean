import Mathlib
import FlatWasm.Proofs.Source.Pass

/-!
# Code that cannot run

Instructions that cannot run are typed all the same: they take and leave operands, open and close frames, and are refused if
they are wrong.  Nothing of this is seen in the code.  If they are cut out of a body, what is left is accepted, and is lowered
to the same code byte by byte.

An instruction is cut out if code cannot run where it stands.  The `else` and the `end` of a frame that was opened where code
could run have to stay (`Typing.State.keeps`), since code may be able to run after them.

## How the two walks go together

The walk over what is left has fewer frames open: those that were opened in code that cannot run are missing.  Where the frame
around them comes after a jump, it has lost its operands, and those that were pushed since are missing too.  `Trims` says how
the frames of the two walks belong together.  An instruction that is cut out changes frames that are missing, or operands that
are (`Trims.cut`).  An instruction that stays is met by the same frames, but for operands of which none is asked
(`Trims.keep`).
-/

namespace FlatWasm

open Source

/-- The `else` or the `end` of a frame. -/
def Instr.isMark : Instr → Bool
  | .elseMark | .endMark => true
  | _ => false

/-- Where nothing can run, operands that are not there can be of any types. -/
theorem Typing.Frame.takes_of_unreachable {f : Frame} (h : f.unreachable = true)
    (ts : List ValueType) :
    (f.withOperands []).Takes ts (List.replicate ts.length .bottom) [] := by
  refine ⟨⟨ts.length, by simp, fun _ => ⟨h, rfl⟩⟩, ?_⟩
  induction ts with
  | nil => exact .nil
  | cons t ts ih => exact .cons (by simp [matchesType]) ih

namespace Typing.State

variable {s t : State} {i : Instr} {next : Option State} {results : List ValueType}

/-- An instruction has to stay where code can run, and if it divides or ends a frame that was opened where code could. -/
def keeps (s : State) (i : Instr) : Bool :=
  s.live || i.isMark && !s.top.dead

theorem live_of_keeps (h : s.keeps i = false) : s.top.live = false := by
  rw [keeps, Bool.or_eq_false_iff] at h
  exact h.1

theorem dead_of_keeps (h : s.keeps i = false) (hi : i.isMark = true) : s.top.dead = true := by
  rw [keeps, Bool.or_eq_false_iff, hi, Bool.true_and, Bool.not_eq_false'] at h
  exact h.2

/-- `t` is `s` without the frames that were opened where code cannot run, and without the operands that were pushed there. -/
inductive Trims : State → State → Prop
  | live {s : State} (h : ∀ f ∈ s.frames, f.live = true) : Trims s s
  | unreachable {top : Frame} {below : List Frame} (hdead : top.dead = false)
      (hunreachable : top.unreachable = true) (hbelow : ∀ f ∈ below, f.live = true) :
      Trims ⟨top, below⟩ ⟨top.withOperands [], below⟩
  | dead {top parent : Frame} {below : List Frame} {t : State} (hdead : top.dead = true)
      (hparent : parent.live = false) (h : Trims ⟨parent, below⟩ t) :
      Trims ⟨top, parent :: below⟩ t

/-- The frames around one that ends are as they were, but for operands. -/
theorem live_of_leave (h : ∀ f ∈ s.below, f.live = true)
    (hs : s.step results .endMark = .ok (some t)) : ∀ f ∈ t.frames, f.live = true := by
  obtain ⟨-, -, hnext⟩ := leave_eq_ok_iff.mp hs
  cases hbelow : s.below with
  | nil =>
    rw [hbelow] at hnext
    cases hnext
  | cons parent below =>
    rw [hbelow] at h hnext
    cases hnext
    exact List.forall_mem_cons.mpr (List.forall_mem_cons.mp h)

namespace Trims

/-- What becomes of a frame whose code cannot run is not seen. -/
theorem same {f g : Frame} {below : List Frame} (h : Trims ⟨f, below⟩ t) (hf : f.live = false)
    (hs : f.Same g) : Trims ⟨g, below⟩ t := by
  cases h with
  | live hlive => exact absurd ((hlive f List.mem_cons_self).symm.trans hf) (by decide)
  | unreachable hdead hunreachable hbelow =>
    have hg := hs.unreachable hunreachable
    have heq : g.withOperands [] = f.withOperands [] := by
      obtain ⟨hkind, hinputs, houtputs, hdead', -⟩ := hs
      simp only [Frame.withOperands, hkind, hinputs, houtputs, hdead', hg, hunreachable]
    rw [← heq]
    exact .unreachable (hs.dead.trans hdead) hg hbelow
  | dead hdead hparent h => exact .dead (hs.dead.trans hdead) hparent h

/-- **What is cut out is not seen.** -/
theorem cut (h : Trims s t) (hk : s.keeps i = false) (hs : s.step results i = .ok next) :
    ∃ s', next = some s' ∧ Trims s' t := by
  have hlive := live_of_keeps hk
  cases hi : i.isStructural with
  | false =>
    obtain ⟨top, rfl, hsame⟩ := step_same hi hs
    exact ⟨_, rfl, h.same hlive hsame⟩
  | true =>
    rcases Instr.mark_or_opens hi with rfl | rfl | ⟨kind, type, hopens⟩
    · -- the frame that is divided is missing, and still is
      obtain ⟨s', hswitch, rfl⟩ := step_elseMark_eq_ok_iff.mp hs
      obtain ⟨-, -, rfl⟩ := switch_eq_ok_iff.mp hswitch
      have hdead := dead_of_keeps hk rfl
      cases h with
      | live hall => exact absurd ((hall _ List.mem_cons_self).symm.trans hlive) (by decide)
      | unreachable hdead' => exact absurd (hdead.symm.trans hdead') (by decide)
      | dead _ hparent h => exact ⟨_, rfl, .dead hdead hparent h⟩
    · -- the frame around the one that ends cannot run either
      obtain ⟨-, -, rfl⟩ := leave_eq_ok_iff.mp hs
      have hdead := dead_of_keeps hk rfl
      cases h with
      | live hall => exact absurd ((hall _ List.mem_cons_self).symm.trans hlive) (by decide)
      | unreachable hdead' => exact absurd (hdead.symm.trans hdead') (by decide)
      | dead _ hparent h => exact ⟨_, rfl, h.same hparent (Frame.same_withOperands _ _)⟩
    · obtain ⟨rest, rfl⟩ := step_opens hopens hs
      have hdead : (s.top.unreachable || s.top.dead) = true := by
        rwa [Frame.live_eq, Bool.not_eq_false'] at hlive
      exact ⟨_, rfl, .dead hdead hlive (h.same hlive (Frame.same_withOperands _ rest))⟩

/-- Where all code can run, nothing is missing afterwards. -/
theorem refl_of_step (h : ∀ f ∈ s.frames, f.live = true) (hs : s.step results i = .ok (some t)) :
    Trims t t := by
  obtain ⟨htop, hbelow⟩ := List.forall_mem_cons.mp h
  have hnot : (s.top.unreachable || s.top.dead) = false := by
    rwa [Frame.live_eq, Bool.not_eq_true'] at htop
  have hdead : s.top.dead = false := (Bool.or_eq_false_iff.mp hnot).2
  cases hi : i.isStructural with
  | false =>
    obtain ⟨top, hnext, rfl | ⟨ts, rfl⟩⟩ := step_top hi hs
    · -- a jump leaves no operands
      cases hnext
      exact .unreachable hdead rfl hbelow
    · cases hnext
      exact .live (List.forall_mem_cons.mpr ⟨htop, hbelow⟩)
  | true =>
    rcases Instr.mark_or_opens hi with rfl | rfl | ⟨kind, type, hopens⟩
    · obtain ⟨s', hswitch, hnext⟩ := step_elseMark_eq_ok_iff.mp hs
      obtain ⟨-, -, rfl⟩ := switch_eq_ok_iff.mp hswitch
      cases hnext
      exact .live (List.forall_mem_cons.mpr ⟨by simp [Frame.live, hdead], hbelow⟩)
    · exact .live (live_of_leave hbelow hs)
    · obtain ⟨rest, hnext⟩ := step_opens hopens hs
      cases hnext
      refine .live (List.forall_mem_cons.mpr ⟨by simp [Frame.live, hnot], ?_⟩)
      exact List.forall_mem_cons.mpr ⟨htop, hbelow⟩

/-- **What stays does the same.** -/
theorem keep (h : Trims s t) (hk : s.keeps i = true) (hs : s.step results i = .ok next) :
    t.depth = s.depth ∧ t.keeps i = true ∧ t.step results i = .ok next ∧
      (∀ scope (low : Lowering.State), low.step scope t i = low.step scope s i) ∧
      ∀ s', next = some s' → Trims s' s' := by
  cases h with
  | live hlive =>
    refine ⟨rfl, hk, hs, fun _ _ => rfl, fun s' hnext => ?_⟩
    subst hnext
    exact refl_of_step hlive hs
  | dead hdead =>
    simp [keeps, State.live, Frame.live, hdead] at hk
  | @unreachable top below hdead hunreachable hbelow =>
    -- only a mark stays, and it asks for the outputs of the frame, which are there in any case
    have hmark : i.isMark = true := by
      simpa [keeps, State.live, Frame.live, hdead, hunreachable] using hk
    have htakes : ∃ taken, (top.withOperands []).Takes top.outputs.reverse taken [] :=
      ⟨_, Frame.takes_of_unreachable hunreachable _⟩
    cases i with
    | elseMark =>
      obtain ⟨s', hswitch, rfl⟩ := step_elseMark_eq_ok_iff.mp hs
      obtain ⟨hkind, -, rfl⟩ := switch_eq_ok_iff.mp hswitch
      refine ⟨rfl, hk, ?_, fun scope low => ?_, fun s' hnext => ?_⟩
      · exact step_elseMark_eq_ok_iff.mpr ⟨_, switch_eq_ok_iff.mpr ⟨hkind, htakes, rfl⟩, rfl⟩
      · simp only [Lowering.State.step, Frame.withOperands, hdead, hunreachable]
        rfl
      · cases hnext
        exact .live (List.forall_mem_cons.mpr ⟨by simp [Frame.live, hdead], hbelow⟩)
    | endMark =>
      obtain ⟨hkind, -, hnext⟩ := leave_eq_ok_iff.mp hs
      refine ⟨rfl, hk, ?_, fun scope low => ?_, fun s' hnext => ?_⟩
      · exact leave_eq_ok_iff.mpr ⟨hkind, htakes, hnext⟩
      · simp only [Lowering.State.step, Frame.withOperands, hdead, hunreachable]
        rfl
      · subst hnext
        exact .live (live_of_leave hbelow hs)
    | _ => cases hmark

end Trims

end Typing.State

/-- What is cut out emits nothing. -/
theorem Lowering.State.step_of_cut {s : Lowering.State} {frames : Typing.State} {i : Instr}
    (h : frames.keeps i = false) (scope : Scope) : s.step scope frames i = .ok s := by
  have hlive := Typing.State.live_of_keeps h
  unfold step
  by_cases hdead : frames.top.dead = true
  · rw [if_pos hdead]
    rfl
  · have hunreachable : frames.top.unreachable = true := by
      simpa [Typing.Frame.live, hdead] using hlive
    rw [if_neg hdead, if_pos hunreachable]
    split
    · exact absurd (Typing.State.dead_of_keeps h rfl) hdead
    · exact absurd (Typing.State.dead_of_keeps h rfl) hdead
    · rfl

/-! ## Bodies -/

/-- What is left of a body without the instructions that can be cut out. -/
def Scope.trim (scope : Scope) (frames : Typing.State) (bytes : List UInt8) : List UInt8 :=
  match bytes with
  | [] => []
  | op :: bytes =>
    match _h : frames.accept scope op bytes with
    | .error _ => op :: bytes
    | .ok { instr, next, rest } =>
      (if frames.keeps instr then (op :: bytes).take (bytes.length + 1 - rest.length) else []) ++
        match next with
        | some frames => scope.trim frames rest
        | none => rest
termination_by bytes.length
decreasing_by
  have : rest.length ≤ bytes.length := (Typing.State.suffix_of_accept _h).length_le
  simp only [List.length_cons]
  omega

/-- An instruction that is accepted stays with all its bytes, or none. -/
theorem Scope.trim_cons {scope : Scope} {frames : Typing.State} {op : UInt8} {bs : List UInt8}
    {a : Accepted} (ha : frames.accept scope op (bs ++ a.rest) = .ok a) :
    scope.trim frames (op :: (bs ++ a.rest)) = (if frames.keeps a.instr then op :: bs else []) ++
      match a.next with
      | some frames => scope.trim frames a.rest
      | none => a.rest := by
  have htake : (op :: (bs ++ a.rest)).take ((bs ++ a.rest).length + 1 - a.rest.length) = op :: bs := by
    rw [← List.cons_append]
    exact List.take_left' (by simp only [List.length_append, List.length_cons]; omega)
  rw [trim]
  split
  · next e he =>
    rw [he] at ha
    cases ha
  · next instr next rest ha' =>
    obtain rfl := Except.ok.inj (ha'.symm.trans ha)
    rw [htake]
    cases next <;> rfl

namespace Subject

variable {subject subject' : Subject}

/-- **The walk over what is left of a body ends with the same code**, and comes by nothing that can be cut out. -/
theorem lower_trim {frames t : Typing.State} {s : Lowering.State} {bytes : List UInt8}
    {code : Flat.Code} (hscope : subject'.scope = subject.scope) (ht : frames.Trims t)
    (h : subject.lower frames s bytes = .ok code) :
    subject'.lower t s (subject.scope.trim frames bytes) = .ok code ∧
      ∀ v ∈ subject'.trail ⟨t, s⟩ (subject.scope.trim frames bytes),
        v.before.frames.keeps v.instr = true := by
  induction hn : bytes.length using Nat.strong_induction_on generalizing frames t s bytes with
  | _ n ih =>
    subst hn
    cases bytes with
    | nil => exact absurd h lower_nil
    | cons op bytes =>
      obtain ⟨a, low, ha, hlow, hnext⟩ := lower_cons_eq_ok_iff.mp h
      obtain ⟨token, bs, htoken, rfl, hi, hs⟩ := Typing.State.exists_token_of_accept ha
      have hlt : a.rest.length < (op :: (bs ++ a.rest)).length := by simp
      rw [Scope.trim_cons ha]
      cases hk : frames.keeps a.instr with
      | false =>
        obtain ⟨frames', hsome, ht'⟩ := ht.cut hk hs
        obtain rfl := Except.ok.inj (hlow.symm.trans (Lowering.State.step_of_cut hk _))
        rw [hsome] at hnext ⊢
        exact ih _ hlt ht' hnext rfl
      | true =>
        obtain ⟨hdepth, hk', hs', hlow', htrims⟩ := ht.keep hk hs
        have haccept : ∀ rest, t.accept subject'.scope op (bs ++ rest) = .ok ⟨a.instr, a.next, rest⟩ := by
          intro rest
          rw [hscope]
          exact (Typing.State.accept_eq_ok_iff htoken).mpr ⟨hdepth ▸ hi, hs', rfl⟩
        have hstep : s.step subject'.scope t a.instr = .ok low := by rw [hscope, hlow', hlow]
        rw [if_pos rfl, List.cons_append]
        cases hnone : a.next with
        | none =>
          rw [hnone] at hnext haccept
          have htrail := trail_cons (x := ⟨t, s⟩) (haccept a.rest) hstep
          refine ⟨lower_cons_eq_ok_iff.mpr ⟨_, low, haccept _, hstep, hnext⟩, ?_⟩
          rw [htrail]
          exact List.forall_mem_cons.mpr ⟨hk', List.forall_mem_nil _⟩
        | some frames' =>
          rw [hnone] at hnext haccept
          obtain ⟨hl, hrest⟩ := ih _ hlt (htrims frames' hnone) hnext rfl
          have htrail := trail_cons (x := ⟨t, s⟩) (haccept (subject.scope.trim frames' a.rest)) hstep
          refine ⟨lower_cons_eq_ok_iff.mpr ⟨_, low, haccept _, hstep, hl⟩, ?_⟩
          rw [htrail]
          exact List.forall_mem_cons.mpr ⟨hk', hrest⟩

end Subject

namespace Function

variable {f g : Function} {space : IndexSpace}

/-- A function without the instructions that can be cut out of its body. -/
def trimmed (f : Function) (space : IndexSpace) : Function :=
  { f with
    body := .raw ((f.subject space).scope.trim (.initial f.type.results) f.body.bytes) }

/-- **Code that cannot run leaves no trace.**  If a function is lowered, then what is left of it without the instructions that
cannot run is lowered to the same code, and all the instructions that it has left have to stay. -/
theorem lower_trimmed_of_lower (h : f.lower space = .ok g) : (f.trimmed space).lower space = .ok g ∧
    ∀ v ∈ (f.trimmed space).trail space, v.before.frames.keeps v.instr = true := by
  obtain ⟨code, -, hwalk, rfl⟩ := lower_eq_ok_iff.mp h
  have hstart : f.start.frames.Trims f.start.frames :=
    .live (List.forall_mem_cons.mpr ⟨rfl, List.forall_mem_nil _⟩)
  have hscope : ((f.trimmed space).subject space).scope = (f.subject space).scope := rfl
  obtain ⟨hlower, htrail⟩ := Subject.lower_trim hscope hstart hwalk
  exact ⟨lower_eq_ok_iff.mpr ⟨code, rfl, hlower, rfl⟩, htrail⟩

/-- Two jumps, each with code after it that cannot run: a sum of operands that are not there, and an `if` with both its
branches. -/
def jumpsOut : Function where
  index := 0
  type := ⟨[], [.i32]⟩
  locals := {}
  body := .raw [0x02, 0x40, 0x0c, 0, 0x6a, 0x04, 0x7f, 0x41, 1, 0x05, 0x00, 0x0b, 0x1a, 0x0b, 0x41, 7, 0x0f, 0x1a, 0x0b]

/-- The code of both: a jump to the next instruction, a constant and a return. -/
def jumpsOutLowered : Function :=
  { jumpsOut with body := .lowered [2, 5, 0, 0, 0, 54, 7, 0, 0, 0, 8, 1, 0, 0, 0, 0, 0, 0, 0] }

/-- A block with a jump in it, a constant and a return are left. -/
theorem jumpsOut_trimmed : jumpsOut.lower {} = .ok jumpsOutLowered ∧
    (jumpsOut.trimmed {}).body = .raw [0x02, 0x40, 0x0c, 0, 0x0b, 0x41, 7, 0x0f, 0x0b] ∧
      (jumpsOut.trimmed {}).lower {} = .ok jumpsOutLowered := by
  have hlower : jumpsOut.lower {} = .ok jumpsOutLowered := by decide +kernel
  exact ⟨hlower, by decide +kernel, (lower_trimmed_of_lower hlower).1⟩

end Function

end FlatWasm
