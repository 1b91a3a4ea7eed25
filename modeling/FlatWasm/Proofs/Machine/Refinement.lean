import Mathlib
import FlatWasm.Proofs.Machine.Simulation

/-!
# A function and its code

The two machines on a whole function.  The flat machine starts at offset 0 with the arguments on its stack; the locals
are pushed, the body runs, and its last instruction returns.

`followsRun` is the simulation for one source run.  From it both directions follow.  A source run that ends is
followed by a flat run that ends in the same way.  A flat run that ends after `n` steps is compared with the source run
with fuel `n + 1`: that run cannot be out of fuel, since then the flat machine would still be running, so it ends too,
and by the first direction in the same way.
-/

namespace FlatWasm

namespace Machine

open Source Lowering

variable {σ : Type} {w : World σ} {f : Function} {space : IndexSpace} {e : Expr} {code : Flat.Code}
  {args : List Word} {s : σ}

/-- What the flat machine does for one source run: it ends in the same way; or the source run is out of fuel, and the
flat machine still runs after as many steps as there was fuel. -/
def FollowsRun (w : World σ) (f : Function) (space : IndexSpace) (code : List UInt8)
    (args : List Word) (s : σ) (fuel : ℕ) (out : Outcome σ) : Prop :=
  ∃ k, (w.runCode f space code args s k).performed = out.performed ∧
    ((∃ r, out.result? f.type.results.length = some r ∧
        (w.runCode f space code args s k).result? = some r) ∨
      (∃ o, out = .timeout o) ∧ fuel ≤ k ∧ ∃ m, w.runCode f space code args s k = .running m)

/-- The locals are pushed first. -/
theorem exists_run_prologue (w : World σ) {c : Listing} {pc : ℕ} {q : Option Point}
    (hl : f.IsLaid c e pc q) (hfits : Fits c) (hcount : f.localCount < 2 ^ 32) (args : List Word)
    (o : Outside σ) :
    ∃ k, (Machine.code c).run w k (.running ⟨0, args.reverse, o⟩) =
      .running (Config.cpu ⟨args ++ List.replicate f.locals.length 0, [], o⟩
        (if f.locals.isEmpty then 0 else 5) []) := by
  have hcpu : ∀ n, Config.cpu ⟨args ++ List.replicate f.locals.length 0, [], o⟩ n [] =
      ⟨n, List.replicate f.locals.length 0 ++ args.reverse, o⟩ := by
    intro n
    rw [Config.cpu, Config.stack, List.nil_append, List.nil_append, List.reverse_append,
      List.reverse_replicate]
  cases hempty : f.locals.isEmpty with
  | true =>
    refine ⟨0, ?_⟩
    have hlen : f.locals.length = 0 := by
      rw [Locals.length, List.isEmpty_iff.mp hempty]
      rfl
    rw [hcpu, hlen, Program.run_zero]
    rfl
  | false =>
    have hlt : f.locals.length < 2 ^ 32 := by
      have hlen := f.length_localTypes
      rw [Function.localCount] at hcount
      omega
    refine ⟨1, ?_⟩
    rw [run_one hfits (show Flat.Spells c.code (Cpu.mk 0 args.reverse o).pc _ from hl.locals hempty),
      hcpu]
    show Status.running ⟨5, List.replicate (UInt32.ofNat f.locals.length).toNat 0 ++ args.reverse, o⟩ = _
    rw [toNat_word hlt]
    rfl

/-- **One source run, and the flat run that follows it.** -/
theorem followsRun (he : e.IsBody f.body.bytes)
    (hl : (f.subject space).lower f.start.frames f.start.low f.body.bytes = .ok code)
    (hfit : f.FitsWords space code.bytes) (hargs : args.length = f.type.params.length) (fuel : ℕ) :
    FollowsRun w f space code.bytes args s fuel (w.runBody f space e args s fuel) := by
  obtain ⟨c, hc⟩ : ∃ c, c = f.listing space code fun h => f.localCount + h < 2 ^ 32 := ⟨_, rfl⟩
  obtain ⟨pc, q, hlaid⟩ : ∃ pc q, f.IsLaid c e pc q := by
    rw [hc]
    exact Function.exists_isLaid he hl hfit.heights
  have hfits : Fits c := by
    rw [hc]
    exact ⟨hfit.size, fun hb => hb⟩
  have hscope : c.scope = (f.subject space).scope := by rw [hc]; rfl
  have hrun : ∀ k, (Machine.code c).run w k (.running ⟨0, args.reverse, ⟨s, []⟩⟩) =
      w.runCode f space code.bytes args s k := by
    rw [hc]
    exact fun _ => rfl
  obtain ⟨k₀, hk₀⟩ := exists_run_prologue w hlaid hfits hfit.locals args ⟨s, []⟩
  have hexits : ExitsFit c [⟨none, 0, f.type.results.length, .unknown⟩] := by
    refine ⟨?_, ?_, ?_⟩ <;> rw [List.forall_mem_singleton]
    · exact Nat.le_refl _
    · nofun
    · exact fun _ => rfl
  have hend : q ≠ none → pc < (Flat.encode c.code).length := by
    intro hne
    obtain ⟨r, rfl⟩ := Option.ne_none_iff_exists'.mp hne
    exact (hlaid.last r rfl).lt
  have hlocals : (args ++ List.replicate f.locals.length (0 : Word)).length =
      c.scope.locals.length := by
    rw [List.length_append, List.length_replicate, hargs, hscope]
    exact (f.length_localTypes).symm
  have hsim := (simulates w hfits hlaid.body rfl hexits hend fuel []
    ⟨args ++ List.replicate f.locals.length 0, [], ⟨s, []⟩⟩ hlocals rfl rfl).of_run hk₀
      (Nat.le_add_left fuel k₀)
  have hexec : w.exec c.scope e 1 fuel
      ⟨args ++ List.replicate f.locals.length 0, [], ⟨s, []⟩⟩ = w.runBody f space e args s fuel := by
    rw [hscope]
    rfl
  rw [show List.length [_] = 1 from rfl, hexec] at hsim
  cases hout : w.runBody f space e args s fuel with
  | next cfg =>
    -- the return at the end of the code
    rw [hout] at hsim
    obtain ⟨hlocals', ⟨r, rfl, hheight⟩, k, hk⟩ := hsim
    obtain ⟨hr, hb⟩ := hlaid.height r rfl
    have hlen : cfg.operands.length = f.type.results.length := by
      rw [← hr, hheight]
      rfl
    have hbound := hfits.bound hb
    have hbranch : Branches c ⟨none, 0, f.type.results.length, .unknown⟩ [] cfg :=
      ⟨hlocals', Nat.le_of_eq hlen.symm, Nat.le_refl _, by rw [← hheight]; exact hbound, nofun,
        fun _ => rfl⟩
    have hdrop : Exit.dropped ⟨none, 0, f.type.results.length, .unknown⟩
        (cfg.operands.length + ([] : List Word).length) = 0 := by
      rw [Exit.dropped, hlen]
      simp
    have hspell : Flat.Spells c.code pc (Exit.code ⟨none, 0, f.type.results.length, .unknown⟩
        c.scope .always pc (cfg.operands.length + ([] : List Word).length)) := by
      show Flat.Spells c.code pc [.ret _ (UInt32.ofNat (Exit.dropped _ _) + _)]
      rw [hdrop]
      exact hlaid.last r rfl
    have hone : w.runCode f space code.bytes args s (k + 1) =
        .returned (cfg.operands.take f.type.results.length).reverse cfg.outside := by
      rw [← hrun, Program.run_add, hk]
      exact hbranch.run_always hfits hspell
    rw [List.take_of_length_le (Nat.le_of_eq hlen)] at hone
    exact ⟨k + 1, by rw [hone]; rfl, .inl ⟨_, rfl, by rw [hone]; rfl⟩⟩
  | branch label cfg =>
    -- the function is the only frame
    rw [hout] at hsim
    obtain ⟨-, x, hx, harity, k, hk⟩ := hsim
    cases label with
    | succ label => cases hx
    | zero =>
      cases hx
      rw [hrun] at hk
      exact ⟨k + 1, by rw [hk]; rfl, .inl ⟨_, if_pos harity, by rw [hk]; rfl⟩⟩
  | trap o =>
    rw [hout] at hsim
    obtain ⟨k, hk⟩ := hsim
    rw [hrun] at hk
    exact ⟨k, by rw [hk]; rfl, .inl ⟨_, rfl, by rw [hk]; rfl⟩⟩
  | timeout o =>
    rw [hout] at hsim
    obtain ⟨k, m, hle, hk, hm⟩ := hsim
    rw [hrun] at hk
    exact ⟨k, by rw [hk, ← hm]; rfl, .inr ⟨⟨o, rfl⟩, hle, m, hk⟩⟩
  | stuck =>
    rw [hout] at hsim
    exact False.elim hsim

/-! ## What has been done stays done -/

/-- A status that has come from a machine that had done some things. -/
def Extends (ops : List (Instr × List Word)) (st : Status σ) : Prop :=
  st = .stuck ∨ ops <+: st.performed

namespace Cpu

variable (m : Cpu σ)

theorem extends_goto (pc : ℕ) (stack : List Word) :
    Extends m.outside.performed (m.goto pc stack) :=
  .inr (List.prefix_refl _)

theorem extends_branch (keep drop target : UInt32) (stack : List Word) :
    Extends m.outside.performed (m.branch keep drop target stack) := by
  rw [branch]
  split
  · exact m.extends_goto _ _
  · exact .inl rfl

theorem extends_ret (keep drop : UInt32) (stack : List Word) :
    Extends m.outside.performed (m.ret keep drop stack) := by
  rw [ret]
  split
  · exact .inr (List.prefix_refl _)
  · exact .inl rfl

theorem extends_ask (i : Instr) (next : ℕ) : Extends m.outside.performed (m.ask w i next) := by
  have happly : ∀ p, w.apply i m.stack m.outside = some p →
      m.outside.performed <+: p.1.performed := by
    intro p hp
    rw [World.apply] at hp
    split at hp
    · cases hp
    · split at hp
      · cases hp
        exact List.prefix_append _ _
      · cases hp
  rw [ask]
  split
  · next h => exact .inr (happly _ h)
  · next h => exact .inr (happly _ h)
  · exact .inl rfl

theorem extends_execute (source : Option Instr) (j : Flat.Instr) :
    Extends m.outside.performed (m.execute w source j) := by
  cases j <;> unfold execute <;> dsimp only <;> (repeat' split) <;>
    first
    | exact m.extends_goto _ _
    | exact m.extends_branch _ _ _ _
    | exact m.extends_ret _ _ _
    | exact m.extends_ask _ _
    | exact .inl rfl
    | exact .inr (List.prefix_refl _)

end Cpu

theorem extends_run (p : Program) (n : ℕ) (st : Status σ) : Extends st.performed (p.run w n st) := by
  induction n generalizing st with
  | zero =>
    rw [Program.run_zero]
    exact .inr (List.prefix_refl _)
  | succ n ih =>
    cases st with
    | running m =>
      have hstep : Extends m.outside.performed (p.step w m) := by
        rw [Program.step]
        split
        · exact m.extends_execute _ _
        · exact .inl rfl
      rcases hstep with hstep | hstep
      · refine .inl ?_
        rw [Program.run, hstep]
        exact Program.run_of_stopped p w (fun _ h => by cases h) n
      · rcases ih (p.step w m) with h | h
        · exact .inl h
        · exact .inr (hstep.trans h)
    | returned _ _ | trapped _ | stuck => exact .inr (List.prefix_refl _)

/-! ## Both directions -/

theorem runCode_add (bytes : List UInt8) (k l : ℕ) : w.runCode f space bytes args s (k + l) =
    (program f space bytes).run w l (w.runCode f space bytes args s k) :=
  Program.run_add _ _ _ _ _

theorem runCode_eq_of_stopped {bytes : List UInt8} {k l : ℕ} (hkl : k ≤ l)
    (h : ∀ m, w.runCode f space bytes args s k ≠ .running m) :
    w.runCode f space bytes args s l = w.runCode f space bytes args s k := by
  obtain ⟨d, rfl⟩ := Nat.exists_eq_add_of_le hkl
  rw [runCode_add, Program.run_of_stopped _ _ h]

/-- A machine with a result has stopped. -/
theorem ne_running_of_result {st : Status σ} {r : Result σ} (h : st.result? = some r) (m : Cpu σ) :
    st ≠ .running m := by
  rintro rfl
  cases h

/-- A run ends in one way. -/
theorem result_unique {bytes : List UInt8} {k l : ℕ} {r r' : Result σ}
    (h : (w.runCode f space bytes args s k).result? = some r)
    (h' : (w.runCode f space bytes args s l).result? = some r') : r = r' := by
  rcases Nat.le_total k l with hkl | hkl
  · rw [runCode_eq_of_stopped hkl (ne_running_of_result h), h] at h'
    exact Option.some.inj h'
  · rw [runCode_eq_of_stopped hkl (ne_running_of_result h'), h'] at h
    exact (Option.some.inj h).symm

section Both

variable (he : e.IsBody f.body.bytes)
  (hl : (f.subject space).lower f.start.frames f.start.low f.body.bytes = .ok code)
  (hfit : f.FitsWords space code.bytes) (hargs : args.length = f.type.params.length)

include he hl hfit hargs

theorem runBody_ne_stuck (fuel : ℕ) : w.runBody f space e args s fuel ≠ .stuck := by
  intro hstuck
  obtain ⟨k, -, ⟨r, hr, -⟩ | ⟨⟨o, ho⟩, -⟩⟩ := followsRun (w := w) (s := s) he hl hfit hargs fuel
  · rw [hstuck] at hr
    cases hr
  · rw [hstuck] at ho
    cases ho

theorem runCode_ne_stuck (n : ℕ) : w.runCode f space code.bytes args s n ≠ .stuck := by
  intro hstuck
  have hstop : ∀ m, w.runCode f space code.bytes args s n ≠ .running m := by
    intro m hm
    rw [hstuck] at hm
    cases hm
  obtain ⟨k, -, ⟨r, -, hr⟩ | ⟨-, hlt, m, hm⟩⟩ :=
    followsRun (w := w) (s := s) he hl hfit hargs (n + 1)
  · rcases Nat.le_total n k with hnk | hkn
    · rw [runCode_eq_of_stopped hnk hstop, hstuck] at hr
      cases hr
    · rw [← runCode_eq_of_stopped hkn (ne_running_of_result hr), hstuck] at hr
      cases hr
  · exact hstop m (runCode_eq_of_stopped (Nat.le_of_lt hlt) hstop ▸ hm)

theorem bodyEnds_iff (r : Result σ) :
    w.BodyEnds f space e args s r ↔ w.CodeEnds f space code.bytes args s r := by
  constructor
  · rintro ⟨fuel, hr⟩
    obtain ⟨k, -, ⟨r', hr', hk⟩ | ⟨⟨o, ho⟩, -⟩⟩ := followsRun (w := w) (s := s) he hl hfit hargs fuel
    · rw [hr] at hr'
      cases hr'
      exact ⟨k, hk⟩
    · rw [ho] at hr
      cases hr
  · rintro ⟨n, hn⟩
    obtain ⟨k, -, ⟨r', hr', hk⟩ | ⟨-, hlt, m, hm⟩⟩ :=
      followsRun (w := w) (s := s) he hl hfit hargs (n + 1)
    · rw [result_unique hn hk]
      exact ⟨n + 1, hr'⟩
    · rw [runCode_eq_of_stopped (Nat.le_of_lt hlt) (ne_running_of_result hn)] at hm
      exact absurd hm (ne_running_of_result hn m)

theorem bodyPerforms_iff (ops : List (Instr × List Word)) :
    w.BodyPerforms f space e args s ops ↔ w.CodePerforms f space code.bytes args s ops := by
  constructor
  · rintro ⟨fuel, hops⟩
    obtain ⟨k, hk, -⟩ := followsRun (w := w) (s := s) he hl hfit hargs fuel
    exact ⟨k, hk ▸ hops⟩
  · rintro ⟨n, hops⟩
    obtain ⟨k, hk, hcases⟩ := followsRun (w := w) (s := s) he hl hfit hargs (n + 1)
    refine ⟨n + 1, hops.trans ?_⟩
    rw [← hk]
    rcases Nat.le_total n k with hnk | hkn
    · obtain ⟨d, rfl⟩ := Nat.exists_eq_add_of_le hnk
      have hext := extends_run (w := w) (program f space code.bytes) d
        (w.runCode f space code.bytes args s n)
      rw [← runCode_add] at hext
      exact hext.resolve_left (runCode_ne_stuck he hl hfit hargs _)
    · -- the flat machine has stopped by then, since otherwise it runs on for longer
      rcases hcases with ⟨r, -, hr⟩ | ⟨-, hlt, -⟩
      · rw [runCode_eq_of_stopped hkn (ne_running_of_result hr)]
      · omega

end Both

def eqz : NumericOp := ⟨0x45, by decide⟩

def toggle : Function where
  index := 0
  type := ⟨[.i32], [.i32]⟩
  locals := .ofList [.i32]
  body := .raw [0x20, 0, 0x03, 0, 0x45, 0x20, 0, 0x0e, 2, 0, 1, 1, 0x0b, 0x0b]

def toggleExpr : Expr :=
  .op (.localGet 0) (.loop (.index 0)
    (.op (.numeric eqz) (.op (.localGet 0) (.op (.brTable [0, 1] 1) .done))) .done)

def toggleSpace : IndexSpace where
  types := [some ⟨[.i32], [.i32]⟩]

def toggleCode : List UInt8 :=
  [1, 1, 0, 0, 0, 14, 0, 0, 0, 0, 69, 14, 0, 0, 0, 0,
    7, 1, 0, 0, 0, 2, 0, 0, 0, 0, 0, 0, 0, 10, 0, 0, 0, 2, 0, 0, 0, 255, 255, 255, 255,
    2, 0, 0, 0, 255, 255, 255, 255, 8, 1, 0, 0, 0, 2, 0, 0, 0]

/-- A world where every result is one. -/
def ones : World Unit where
  act i _ _ := ((), some (List.replicate (i.effect?.getD (0, 0)).2 1))
  length_results he h := by
    cases h
    rw [he]
    exact List.length_replicate ..

theorem isBody_toggleExpr : toggleExpr.IsBody toggle.body.bytes := by
  have hword : ∀ b : UInt8, b.toNat < 128 → Source.Word [b] b.toUInt32 := by
    intro b hb
    rw [Source.Word, UInt8.toNat_toUInt32]
    exact .last hb (by omega)
  have hloop : BlockType.Encoded (.index 0) [0] :=
    .index (.nonneg (b := 0) (by decide) (by decide))
  have htable : Op.Encoded (.brTable [0, 1] 1) [0x0e, 2, 0, 1, 1] :=
    .brTable (hword 2 (by decide)) rfl
      (.cons (hword 0 (by decide)) (.cons (hword 1 (by decide)) .nil)) (hword 1 (by decide))
  have hget : Op.Encoded (.localGet 0) [0x20, 0] := .localGet (hword 0 (by decide))
  exact ⟨_, .op hget (.loop hloop (.op (.numeric eqz) (.op hget (.op htable .done))) .done), rfl⟩

end Machine

end FlatWasm
