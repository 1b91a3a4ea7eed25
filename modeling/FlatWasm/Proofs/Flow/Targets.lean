import Mathlib
import FlatWasm.Proofs.Flat.Lines
import FlatWasm.Proofs.Flow.Ways
import FlatWasm.Proofs.Lowering.Pending

/-!
# Code is well formed

The code of a function that is accepted is read back instruction by instruction, it does not run off its end, and its jumps
lead to instructions.  All of this is read off the chart of the function: an instruction has ways to its targets and, if it
falls through, to the offset behind it, and the chart has every offset that a way leads to.

That jumps lead somewhere does not yet say that they lead where they should: a jump whose target was forgotten leads to
offset 0, where there is an instruction too.  So each slot is followed from where it waits to the end of the pass, where no
label is open (`exists_finished`).
-/

namespace FlatWasm

open Source Lowering

namespace Flat.Instr

variable {j : Instr} {pc : ℕ}

/-- Whether control may go on behind an instruction. -/
def fallsThrough : Instr → Bool
  | .unreachable | .jump _ | .br .. | .brTable .. | .ret .. => false
  | _ => true

theorem mem_ways_of_fallsThrough (h : j.fallsThrough = true) : (pc + j.size, 0) ∈ j.ways pc := by
  cases j with
  | unreachable | jump _ | br _ _ _ | brTable _ _ _ | ret _ _ => cases h
  | jumpIf _ | jumpUnless _ | brIf _ _ _ => exact List.mem_cons_of_mem _ List.mem_cons_self
  | _ => exact List.mem_cons_self

/-- Whether a target stands for a return.  It does so in tables only, a jump always leads to its target. -/
def returnsBy (t : UInt32) : Instr → Bool
  | .brTable .. => t == returnTarget
  | _ => false

theorem exists_mem_ways_of_mem_targets {t : UInt32} (ht : t ∈ j.targets) (hret : j.returnsBy t = false) :
    ∃ dropped, (t.toNat, dropped) ∈ j.ways pc := by
  cases j with
  | brTable keep entries fallback =>
    obtain ⟨e, he, rfl⟩ := List.mem_map.mp ht
    have hne : e.target ≠ returnTarget := beq_eq_false_iff_ne.mp hret
    refine ⟨e.drop.toNat, List.mem_map.mpr ⟨e, List.mem_filter.mpr ⟨he, ?_⟩, rfl⟩⟩
    exact decide_eq_true hne
  | jump _ | jumpIf _ | jumpUnless _ | br _ _ _ | brIf _ _ _ =>
    cases List.mem_singleton.mp ht
    exact ⟨_, List.mem_cons_self⟩
  | _ => cases ht

end Flat.Instr

/-- Locals are made before the body, never in it. -/
theorem Site.ne_locals {c : Listing} {L : ℕ → Point → Prop} {n : ℕ} {p : Point} {j : Flat.Instr}
    (h : Site c L n p j) (count : UInt32) : j ≠ .locals count := by
  have hbranch : ∀ (kind : BranchKind) (keep drop target : UInt32),
      kind.instr keep drop target ≠ .locals count := by
    intro kind keep drop target
    cases kind <;> rw [BranchKind.instr] <;> split <;> rintro ⟨⟩
  cases h with
  | @plain depth a b o i j ho hj =>
    rintro rfl
    cases i with
    | access a offset memory => cases a <;> cases hj
    | call callee type =>
      obtain ⟨origin, position⟩ := callee
      cases origin <;> cases hj
    | _ => cases hj
  | branch => exact hbranch _ _ _ _
  | branchIf hx hb hh ha hj hn =>
    rw [hj]
    exact hbranch _ _ _ _
  | _ => rintro ⟨⟩

namespace Subject

variable {subject : Subject} {x : Stage} {bytes : List UInt8}

/-! ## Slots along the walk -/

theorem sound_of_mem_trail (hs : x.low.Sound) : ∀ v ∈ subject.trail x bytes, v.after.Sound := by
  refine forall_mem_trail (I := fun y _ => y.low.Sound) ?_ hs
  rintro y op bs a low hsound - hlow
  obtain ⟨s', hs', hgrows⟩ := hsound.exists_step subject.scope y.frames a.instr
  cases hs'.symm.trans hlow
  exact ⟨hgrows.1, fun _ _ => hgrows.1⟩

theorem advances_of_mem_trail (hs : x.low.Sound) :
    ∀ v ∈ subject.trail x bytes, x.low.Advances v.after := by
  refine forall_mem_trail (I := fun y _ => y.low.Sound ∧ x.low.Advances y.low) ?_ ⟨hs, .refl _⟩
  rintro y op bs a low ⟨hsound, hadv⟩ - hlow
  obtain ⟨s', hs', hgrows⟩ := hsound.exists_step subject.scope y.frames a.instr
  cases hs'.symm.trans hlow
  have hadv' := hadv.trans (hsound.advances_step hlow)
  exact ⟨hadv', fun _ _ => ⟨hgrows.1, hadv'⟩⟩

/-- The mark that ends the walk comes last. -/
theorem advances_last (hs : x.low.Sound) : ∀ v ∈ subject.trail x bytes,
    v.before.frames.step subject.scope.results v.instr = .ok none →
      ∀ w ∈ subject.trail x bytes, w.after.Advances v.after := by
  induction hn : bytes.length using Nat.strong_induction_on generalizing x bytes with
  | _ n ih =>
    subst hn
    rcases trail_cases subject x bytes with h | ⟨op, bs, a, low, rfl, ha, hlow⟩
    · rw [h]
      simp
    · obtain ⟨s', hs', hsound, -⟩ := hs.exists_step subject.scope x.frames a.instr
      cases hs'.symm.trans hlow
      have hlt : a.rest.length < (op :: bs).length :=
        Nat.lt_succ_of_le (Typing.State.suffix_of_accept ha).length_le
      rw [trail_cons ha hlow]
      cases hf : a.next with
      | none =>
        intro v hv _ w hw
        rw [List.mem_singleton.mp hv, List.mem_singleton.mp hw]
        exact .refl _
      | some frames =>
        intro v hv hend w hw
        rcases List.mem_cons.mp hv with rfl | hv
        · rw [Typing.State.step_of_accept ha, hf] at hend
          cases hend
        · rcases List.mem_cons.mp hw with rfl | hw
          · exact advances_of_mem_trail hsound v hv
          · exact ih _ hlt hsound rfl v hv hend w hw

end Subject

namespace Function

variable {f : Function} {space : IndexSpace} {code : Flat.Code}

/-- **At the end of the walk no label is open, and every slot has come there.** -/
theorem exists_finished {e : Expr} (he : e.IsBody f.body.bytes)
    (hl : (f.subject space).lower f.start.frames f.start.low f.body.bytes = .ok code) :
    ∃ s : State, s.code = code ∧ s.Sound ∧ s.labels = [] ∧
      ∀ v ∈ f.trail space, v.after.Advances s := by
  obtain ⟨y, hy, ⟨taken, hclosed⟩, low, hlow, hcode, input, hexplains, hmem⟩ :=
    finishes_of_lower (P := fun v => (f.listing space code fun _ => True).Explains v ∧
      v ∈ f.trail space) he hl
      fun v hv => ⟨explains_of_mem_trail (fun _ _ _ => trivial) v hv, hv⟩
  obtain ⟨hbelow, hsame⟩ := hy.same
  have hready : f.start.Ready (f.subject space).scope := f.ready_start space
  obtain ⟨hfollows, -⟩ := Lowers.lays (c := f.listing space code fun _ => True)
    (hy.mono fun _ h => h.1) hready
  have hlabels : y.low.labels = [] := by
    have hlen := hfollows.labels.length_eq
    rw [hready.labels] at hlen
    exact List.eq_nil_of_length_eq_zero hlen.symm
  have hend : y.frames.step (f.subject space).scope.results .endMark = .ok none := by
    refine Typing.State.leave_eq_ok_iff.mpr ⟨?_, ⟨taken, hclosed⟩, ?_⟩
    · rw [show y.frames.top.kind = .function from hsame.kind]
      exact nofun
    · rw [show y.frames.below = [] from hbelow]
  refine ⟨low, hcode, Subject.sound_of_mem_trail f.sound_start _ hmem, ?_,
    Subject.advances_last f.sound_start _ hmem hend⟩
  rw [State.step_endMark (hsame.dead.trans rfl), State.leave_function _ _ _ hlabels] at hlow
  rw [← Except.ok.inj hlow]
  split <;> exact hlabels

/-- A slot that waits somewhere in the walk has, in the end, the offset of code that was still to come there. -/
theorem exists_target_of_pends {e : Expr} (he : e.IsBody f.body.bytes)
    (hl : (f.subject space).lower f.start.frames f.start.low f.body.bytes = .ok code)
    (hsize : code.bytes.length < 2 ^ 32) {v : Visit} (hv : v ∈ f.trail space) {σ : Flat.Slot}
    (hσ : Pends v.after.labels σ) :
    ∃ t, code.target? σ = some t ∧ v.after.code.size ≤ t.toNat := by
  obtain ⟨s, rfl, hsound, hlabels, hadv⟩ := exists_finished he hl
  have hslot : v.after.code.HasSlot σ := by
    obtain ⟨l, hl, hσl⟩ := hσ
    exact (Subject.sound_of_mem_trail f.sound_start v hv).slots l hl σ hσl
  have hdone : ¬Pends s.labels σ := by
    rw [hlabels]
    rintro ⟨l, hl, -⟩
    cases hl
  obtain ⟨n, ht, hle, hle'⟩ := (hadv v hv).resolved σ hslot hσ hdone
  refine ⟨_, ht, ?_⟩
  have hlen : s.code.size = s.code.bytes.length := hsound.sized
  rw [toNat_word (by omega)]
  exact hle

/-! ## The chart of a function, line by line -/

section

variable {c : Listing} {A : Set (ℕ × Point)}

theorem HasChart.exists_line (h : f.HasChart c A) {n : ℕ} {p : Point} (hn : Lands A n p) :
    n < (Flat.encode c.code).length ∧ ∃ line ∈ Flat.lines 0 c.code, line.offset = n := by
  obtain ⟨r, hr, -⟩ := hn
  obtain ⟨j, hspells, -⟩ := h.site n r hr
  exact ⟨hspells.lt, ⟨n, j⟩, Flat.mem_lines_iff.mpr hspells, rfl⟩

/-- A line is that of the locals, or it is in the body. -/
theorem HasChart.line_cases (h : f.HasChart c A) (hsize : (Flat.encode c.code).length < 2 ^ 32)
    {line : Flat.Line} (hline : line ∈ Flat.lines 0 c.code) :
    line.offset = 0 ∧ f.entry = line.instr.size ∧ line.instr.targets = [] ∨
      ∃ p, Site c (Lands A) line.offset p line.instr := by
  have hspells := Flat.mem_lines_iff.mp hline
  rcases Nat.lt_or_ge line.offset f.entry with hlt | hge
  · left
    have hempty : f.locals.isEmpty = false := by
      rw [entry] at hlt
      split at hlt
      · cases hlt
      · next hne => exact Bool.eq_false_iff.mpr hne
    have hentry : f.entry = 5 := by rw [entry, hempty]; rfl
    have hlocals := h.locals hempty
    have hzero : line.offset = 0 := hlocals.eq_of_overlap hspells (Nat.zero_le _) (by
      show line.offset < 0 + 5
      omega)
    rw [hzero] at hspells
    have hinstr := (hlocals.fetch hsize).symm.trans (hspells.fetch hsize)
    rw [hzero, ← Option.some.inj hinstr, hentry]
    exact ⟨rfl, rfl, rfl⟩
  · right
    obtain ⟨p, hp⟩ := h.covers _ _ hge hspells
    obtain ⟨j, hj, hsite⟩ := h.site _ _ hp
    have hinstr := (hj.fetch hsize).symm.trans (hspells.fetch hsize)
    rw [← Option.some.inj hinstr]
    exact ⟨p, hsite⟩

end

def branchesForward : Function where
  index := 0
  type := ⟨[.i32], []⟩
  locals := .ofList [.i32]
  body := .raw [0x02, 0x40, 0x20, 0, 0x04, 0x40, 0x20, 0, 0x0d, 1, 0x05, 0x20, 0,
    0x0e, 1, 1, 2, 0x0b, 0x0b, 0x0b]

def branchesForwardCode : List UInt8 :=
  [1, 1, 0, 0, 0, 14, 0, 0, 0, 0, 4, 30, 0, 0, 0, 14, 0, 0, 0, 0, 3, 60, 0, 0, 0, 2, 60, 0, 0, 0,
    14, 0, 0, 0, 0, 7, 0, 0, 0, 0, 1, 0, 0, 0, 0, 0, 0, 0, 60, 0, 0, 0, 2, 0, 0, 0,
    255, 255, 255, 255, 8, 0, 0, 0, 0, 2, 0, 0, 0]

end Function

end FlatWasm
