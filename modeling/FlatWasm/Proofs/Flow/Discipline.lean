import Mathlib
import FlatWasm.Proofs.Flow.Ways

/-!
# The stack discipline of flat code

A branch of flat code says how many values it keeps and drops.  The numbers were computed where the branch was emitted,
from the operands that the frames held there, and no instruction checks them when the code runs.  Here it is proved that
they are right on every path: whichever way control came to an offset, the stack has the same height, what an instruction
takes is above the locals, and a return leaves the results and nothing else.

As for what is selected, the invariant of a path is the chart of the code; an offset of the chart has one height.
-/

namespace FlatWasm

open Source Lowering

/-! ## One instruction -/

namespace Instr

variable {i : Instr} {j : Flat.Instr}

theorem branches_of_flat (h : i.flat? = some j) : j.branches = [] ∧ j.returns = [] := by
  cases i with
  | call callee type =>
    obtain ⟨origin, position⟩ := callee
    cases origin <;> cases h <;> exact ⟨rfl, rfl⟩
  | access a offset memory => cases a <;> cases h <;> exact ⟨rfl, rfl⟩
  | _ => cases h <;> exact ⟨rfl, rfl⟩

theorem local?_of_flat (h : i.flat? = some j) : j.local? = i.local? := by
  cases i with
  | call callee type =>
    obtain ⟨origin, position⟩ := callee
    cases origin <;> cases h <;> rfl
  | access a offset memory => cases a <;> cases h <;> rfl
  | _ => cases h <;> rfl

end Instr

namespace Flat.Instr

variable {space : IndexSpace} {locals results height : ℕ}

/-- An instruction that neither names a local nor branches nor returns. -/
theorem Disciplined.of_effect {j : Instr} {pops pushes : ℕ} (hlocal : j.local? = none)
    (hbranches : j.branches = []) (hreturns : j.returns = [])
    (he : j.effect? space = some (pops, pushes)) (hp : 0 < pops → locals + pops ≤ height) :
    j.Disciplined space locals results height := by
  refine ⟨fun _ hx => (by cases hlocal.symm.trans hx), pops, pushes, he, hp, ?_, ?_⟩
  · rw [hbranches]
    exact List.forall_mem_nil _
  · rw [hreturns]
    exact List.forall_mem_nil _

end Flat.Instr

section

variable {c : Listing} {L : ℕ → Point → Prop} {x : Exit} {h : ℕ} {s : Selection}

/-- Words are large enough for the locals and the operands above them. -/
def Listing.FitsStack (c : Listing) : Prop :=
  ∀ h, c.Within h → c.scope.locals.length + h < 2 ^ 32

theorem Listing.FitsStack.lt (hc : c.FitsStack) (h : ℕ) (hw : c.Within h) : h < 2 ^ 32 := by
  have hlt := hc h hw
  omega

theorem Listing.FitsStack.localCount_add (hc : c.FitsStack) (hw : c.Within h) {n : ℕ}
    (hn : n ≤ h) : (UInt32.ofNat n + c.scope.localCount).toNat = n + c.scope.locals.length := by
  have hlt := hc h hw
  rw [Scope.localCount, UInt32.toNat_add, toNat_word (by omega), toNat_word (by omega)]
  exact Nat.mod_eq_of_lt (by omega)

/-- A branch that is taken keeps and drops operands. -/
theorem Exit.Taken.moves (ht : x.Taken c L ⟨h, s⟩) (hlt : h < 2 ^ 32) :
    (UInt32.ofNat x.arity).toNat + (UInt32.ofNat (x.dropped h)).toNat ≤ h := by
  have heq := ht.height_eq hlt
  rw [toNat_word (by omega)]
  omega

/-- A return that is taken keeps the results and drops all that is below them. -/
theorem Exit.Taken.moves_all (ht : x.Taken c L ⟨h, s⟩) (hc : c.FitsStack) (hw : c.Within h)
    (hx : x.target = none) :
    (UInt32.ofNat x.arity).toNat + (UInt32.ofNat (x.dropped h) + c.scope.localCount).toNat =
      c.scope.locals.length + h ∧ (UInt32.ofNat x.arity).toNat = c.scope.results.length := by
  obtain ⟨hbase, harity⟩ := ht.returns hx
  have hlt := hc.lt h hw
  have hcarried : x.base + x.arity ≤ h := ht.carried
  have hdropped : x.dropped h = h - x.arity - x.base := rfl
  rw [hc.localCount_add hw (by omega), toNat_word (by omega)]
  exact ⟨by omega, harity⟩

/-- A table keeps and drops operands, or returns. -/
theorem disciplined_brTable {xs : List Exit} {p : Point} (hc : c.FitsStack)
    (hw : c.Within p.height) (hh : p.height = h + 1)
    (harity : ∀ y ∈ xs ++ [x], y.arity = x.arity)
    (ht : ∀ y ∈ xs ++ [x], y.Taken c L ⟨h, p.selected⟩) :
    (Flat.Instr.brTable (UInt32.ofNat x.arity) (xs.map (·.entry c.scope h))
      (x.entry c.scope h)).Disciplined c.scope.space c.scope.locals.length c.scope.results.length
        (c.scope.locals.length + p.height) := by
  have hw' : c.Within h := by
    obtain ⟨k, hk, hle⟩ := hw
    exact ⟨k, hk, by omega⟩
  have hlt := hc.lt h hw'
  -- every entry is that of a label
  have hentries : ∀ e ∈ xs.map (·.entry c.scope h) ++ [x.entry c.scope h],
      ∃ y ∈ xs ++ [x], e = y.entry c.scope h := by
    intro e he
    rw [show xs.map (·.entry c.scope h) ++ [x.entry c.scope h] =
      (xs ++ [x]).map (·.entry c.scope h) by rw [List.map_append]; rfl] at he
    obtain ⟨y, hy, rfl⟩ := List.mem_map.mp he
    exact ⟨y, hy, rfl⟩
  refine ⟨(by rintro _ ⟨⟩), 1, 0, rfl, fun _ => by omega, fun b hb => ?_, fun r hr => ?_⟩
  · obtain ⟨e, he, rfl⟩ := List.mem_map.mp hb
    obtain ⟨hmem, hne⟩ := List.mem_filter.mp he
    obtain ⟨y, hy, rfl⟩ := hentries e hmem
    have hmoves := (ht y hy).moves hlt
    rw [harity y hy] at hmoves
    rw [Exit.entry] at hne ⊢
    cases htarget : y.target with
    | none => simp [htarget] at hne
    | some t =>
      dsimp only
      omega
  · obtain ⟨e, he, rfl⟩ := List.mem_map.mp hr
    obtain ⟨hmem, heq⟩ := List.mem_filter.mp he
    obtain ⟨y, hy, rfl⟩ := hentries e hmem
    rw [Exit.entry] at heq ⊢
    cases htarget : y.target with
    | none =>
      obtain ⟨hall, hkeep⟩ := (ht y hy).moves_all hc hw' htarget
      rw [harity y hy] at hall hkeep
      exact ⟨by dsimp only; omega, hkeep⟩
    | some t =>
      -- the offset of a label is not the word that stands for a return
      have hlands := ((ht y hy).lands t htarget).1
      have hword : UInt32.ofNat t = Flat.returnTarget := by simpa [htarget] using heq
      have hnat := congrArg UInt32.toNat hword
      rw [toNat_word (by omega)] at hnat
      have hreturn : Flat.returnTarget.toNat = 2 ^ 32 - 1 := rfl
      omega

/-- **Every site keeps to the discipline.** -/
theorem Site.disciplined {n : ℕ} {p : Point} {j : Flat.Instr} (hs : Site c L n p j)
    (hc : c.FitsStack) : j.Disciplined c.scope.space c.scope.locals.length
      c.scope.results.length (c.scope.locals.length + p.height) := by
  cases hs with
  | unreachable => exact .of_effect rfl rfl rfl rfl fun h => absurd h (lt_irrefl 0)
  | use hs hl => exact .of_effect rfl rfl rfl rfl fun h => absurd h (lt_irrefl 0)
  | plain ho hj he ha hm hs hl =>
    obtain ⟨hbranches, hreturns⟩ := Instr.branches_of_flat hj
    refine ⟨?_, _, _, (Instr.effect?_of_flat ho hj).trans he, fun _ => by omega, ?_, ?_⟩
    · rw [Instr.local?_of_flat hj]
      exact local_lt_of_resolve ho
    · rw [hbranches]
      exact List.forall_mem_nil _
    · rw [hreturns]
      exact List.forall_mem_nil _
  | jump ht hl => exact .of_effect rfl rfl rfl rfl fun h => absurd h (lt_irrefl 0)
  | jumpUnless ht hh hl hn => exact .of_effect rfl rfl rfl rfl fun _ => by omega
  | @branch x t hx hb ha =>
    have hmoves := ha.moves (hc.lt _ hb)
    rw [BranchKind.instr]
    split
    · exact .of_effect rfl rfl rfl rfl fun h => absurd h (lt_irrefl 0)
    · refine ⟨(by rintro _ ⟨⟩), 0, 0, rfl, fun h => absurd h (lt_irrefl 0),
        List.forall_mem_singleton.mpr ?_, List.forall_mem_nil _⟩
      dsimp only
      omega
  | @branchIf x t h _ hx hb hh ha hj hn =>
    subst hj
    have hlt := hc.lt _ hb
    have hmoves := ha.moves (by omega)
    rw [BranchKind.instr]
    split
    · exact .of_effect rfl rfl rfl rfl fun _ => by omega
    · refine ⟨(by rintro _ ⟨⟩), 1, 0, rfl, fun _ => by omega,
        List.forall_mem_singleton.mpr ?_, List.forall_mem_nil _⟩
      dsimp only
      omega
  | ret hx hb ha =>
    obtain ⟨hall, hkeep⟩ := ha.moves_all hc hb hx
    exact ⟨(by rintro _ ⟨⟩), 0, 0, rfl, fun h => absurd h (lt_irrefl 0),
      List.forall_mem_nil _, List.forall_mem_singleton.mpr ⟨hall, hkeep⟩⟩
  | brTable hb hh harity ha => exact disciplined_brTable hc hb hh harity ha

end

/-! ## Paths -/

namespace Function

variable {f : Function} {space : IndexSpace} {c : Listing} {A : Set (ℕ × Point)}

/-- What holds along a path: it is at the start, or the height is that of the chart above the locals. -/
def StandsAt (f : Function) (A : Set (ℕ × Point)) : ℕ × ℕ → Prop
  | (pc, height) =>
    pc = 0 ∧ f.locals.isEmpty = false ∧ height = f.type.params.length ∨
      ∃ p, (pc, p) ∈ A ∧ height = f.localCount + p.height

theorem standsAt_of_lands {pc height : ℕ} {p : Point} (h : Lands A pc p)
    (hh : height = f.localCount + p.height) : f.StandsAt A (pc, height) := by
  obtain ⟨r, hr, hle⟩ := h
  exact .inr ⟨r, hr, by rw [hh, hle.1]⟩

/-- One offset has one height. -/
theorem HasChart.height_unique (h : f.HasChart c A) {pc height height' : ℕ}
    (hx : f.StandsAt A (pc, height)) (hy : f.StandsAt A (pc, height')) : height = height' := by
  -- the body starts after the locals
  have hstart : ∀ {p}, (0, p) ∈ A → f.locals.isEmpty = true := by
    intro p hp
    have hle := (h.range 0 p hp).1
    rw [entry] at hle
    cases hempty : f.locals.isEmpty with
    | true => rfl
    | false => simp [hempty] at hle
  rcases hx with ⟨rfl, hempty, rfl⟩ | ⟨p, hp, rfl⟩ <;>
    rcases hy with ⟨hpc, hempty', rfl⟩ | ⟨p', hp', rfl⟩
  · rfl
  · rw [hstart hp'] at hempty
    cases hempty
  · subst hpc
    rw [hstart hp] at hempty'
    cases hempty'
  · rw [h.unique _ p p' hp hp']

/-- The code that comes first pushes the locals. -/
theorem standsAt_of_locals (h : f.HasChart c A) (hcount : f.localCount < 2 ^ 32)
    (hempty : f.locals.isEmpty = false) :
    f.StandsAt A (5, f.type.params.length + (UInt32.ofNat f.locals.length).toNat) := by
  have hlen := f.length_localTypes
  rw [localCount] at hcount
  have hstart := h.start
  rw [entry, hempty] at hstart
  refine standsAt_of_lands hstart ?_
  rw [toNat_word (by omega), localCount, hlen]
  rfl

theorem HasChart.standsAt_start (h : f.HasChart c A) :
    f.StandsAt A (0, f.type.params.length) := by
  cases hempty : f.locals.isEmpty with
  | false => exact .inl ⟨rfl, hempty, rfl⟩
  | true =>
    have hstart := h.start
    rw [entry, hempty] at hstart
    refine standsAt_of_lands hstart ?_
    rw [localCount, f.length_localTypes, Locals.length, List.isEmpty_iff.mp hempty]
    rfl

variable (hsize : (Flat.encode c.code).length < 2 ^ 32) (hfit : c.FitsStack)
  (hcount : f.localCount < 2 ^ 32)

include hsize hfit hcount in
/-- One step along a path. -/
theorem HasChart.standsAt_step (h : f.HasChart c A) {x y : ℕ × ℕ} (hx : f.StandsAt A x)
    (hxy : Flat.HeightStep c.scope.space (Flat.encode c.code) x y) : f.StandsAt A y := by
  obtain ⟨hj, he, hw⟩ := hxy
  rcases hx with ⟨rfl, hempty, rfl⟩ | ⟨p, hp, rfl⟩
  · rw [(h.locals hempty).fetch hsize] at hj
    cases hj
    cases he
    obtain ⟨rfl, rfl⟩ := Prod.mk.inj (List.mem_singleton.mp hw)
    exact standsAt_of_locals h hcount hempty
  · obtain ⟨j', hj', hsite⟩ := h.site _ p hp
    rw [hj'.fetch hsize] at hj
    cases hj
    obtain ⟨q, hq, hleads⟩ := hsite.exists_next hw
    obtain ⟨pops, pushes, he', hle, heq⟩ := hleads.height hfit.lt
    rw [he] at he'
    cases he'
    exact standsAt_of_lands hq (by omega)

include hsize hfit hcount in
theorem HasChart.standsAt_of_path (h : f.HasChart c A) {x : ℕ × ℕ}
    (hpath : Relation.ReflTransGen (Flat.HeightStep c.scope.space (Flat.encode c.code))
      (0, f.type.params.length) x) : f.StandsAt A x := by
  induction hpath with
  | refl => exact h.standsAt_start
  | tail _ hstep ih => exact h.standsAt_step hsize hfit hcount ih hstep

def leavesTwo : Function where
  index := 0
  type := ⟨[.i32], [.i32]⟩
  locals := .ofList [.i64]
  body := .raw [0x41, 7, 0x02, 0x7f, 0x41, 1, 0x41, 2, 0x20, 0, 0x0d, 0, 0x41, 3, 0x20, 0,
    0x0e, 1, 0, 1, 0x0b, 0x6a, 0x0b]

def leavesTwoCode : List UInt8 :=
  [1, 1, 0, 0, 0, 54, 7, 0, 0, 0, 54, 1, 0, 0, 0, 54, 2, 0, 0, 0, 14, 0, 0, 0, 0,
    6, 1, 0, 0, 0, 1, 0, 0, 0, 73, 0, 0, 0, 54, 3, 0, 0, 0, 14, 0, 0, 0, 0,
    7, 1, 0, 0, 0, 1, 0, 0, 0, 2, 0, 0, 0, 73, 0, 0, 0, 5, 0, 0, 0, 255, 255, 255, 255,
    106, 8, 1, 0, 0, 0, 2, 0, 0, 0]

end Function

end FlatWasm
