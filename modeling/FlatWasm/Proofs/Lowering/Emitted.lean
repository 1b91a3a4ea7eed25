import Mathlib
import FlatWasm.Proofs.Flow.Body

/-!
# What all instructions of the code have in common

An instruction of the source emits a few flat instructions, and later only their targets change.  So a property that does
not look at targets holds of all code as soon as it holds of what each instruction of the source can emit.  `Instr.Emits`
lists this: the instructions that move control, the marker of a store, what a plain instruction becomes, and a branch table
with as many entries as there are labels.

* `State.all_of_step`: one step keeps a property of all code.
* `Subject.all_of_lower`: so does the walk over a body.
* `Function.all_of_code`: for the code of a function, which starts with its locals.
-/

namespace FlatWasm

open Source Lowering

namespace Flat

/-- A property that does not depend on the targets of an instruction. -/
def Instr.IgnoresTargets (P : Instr → Prop) : Prop :=
  ∀ i f, P i → P (i.retarget f)

/-- All instructions of the code have a property. -/
def Code.All (P : Instr → Prop) (c : Code) : Prop :=
  ∀ i ∈ c.list, P i

variable {P : Instr → Prop} {c : Code}

theorem Code.all_empty : ({} : Code).All P :=
  List.forall_mem_nil _

theorem Code.All.emit (h : c.All P) {i : Instr} (hi : P i) : (c.emit i).All P := by
  rw [All, list_emit]
  exact List.forall_mem_append.mpr ⟨h, List.forall_mem_singleton.mpr hi⟩

theorem Code.All.retarget (hP : Instr.IgnoresTargets P) (h : c.All P)
    (f : Slot → Option UInt32) : (c.retarget f).All P := by
  intro i hi
  rw [list_retarget] at hi
  obtain ⟨p, hp, rfl⟩ := List.mem_mapIdx.mp hi
  exact hP _ _ (h _ (List.getElem_mem hp))

theorem Code.All.resolveHere (hP : Instr.IgnoresTargets P) (h : c.All P) {slots : List Slot}
    {c' : Code} (hr : c.resolveHere slots = .ok c') : c'.All P := by
  rw [(resolveHere_eq_ok_iff.mp hr).2]
  exact h.retarget hP _

/-- Instructions that only move control. -/
def Instr.isJump : Instr → Bool
  | .unreachable | .jump _ | .jumpIf _ | .jumpUnless _ | .br .. | .brIf .. | .ret .. => true
  | _ => false

end Flat

/-- What an instruction of the source can emit, whatever the targets. -/
inductive Instr.Emits (i : Instr) : Flat.Instr → Prop where
  | jump {j : Flat.Instr} (h : j.isJump = true) : Emits i j
  | marker {kind : Flat.StoreKind} {store : Location} (h : i.store? = some (kind, store)) :
      Emits i (.use kind store.origin.code store.position)
  | plain {j : Flat.Instr} (h : i.flat? = some j) : Emits i j
  | table {labels : List ℕ} {fallback : ℕ} (h : i = .brTable labels fallback) (keep : UInt32)
      {entries : List Flat.Entry} (hlen : entries.length = labels.length) (last : Flat.Entry) :
      Emits i (.brTable keep entries last)

theorem Lowering.BranchKind.isJump_instr (kind : BranchKind) (keep drop target : UInt32) :
    (kind.instr keep drop target).isJump = true := by
  cases kind <;> rw [instr] <;> split <;> rfl

namespace Lowering.State

variable {P : Flat.Instr → Prop} {s s' : State} {scope : Scope}

theorem all_emitAll (h : s.code.All P) {is : List Flat.Instr} (his : ∀ j ∈ is, P j) :
    (s.emitAll is).code.All P := by
  induction is generalizing s with
  | nil => exact h
  | cons j is ih =>
    obtain ⟨hj, his⟩ := List.forall_mem_cons.mp his
    exact ih (s := s.emit j) (h.emit hj) his

theorem all_markers {i : Instr} (he : ∀ j, i.Emits j → P j) (selected : Selection) :
    ∀ j ∈ i.markers selected, P j := by
  rw [Instr.markers]
  cases hs : i.store? with
  | none => exact List.forall_mem_nil _
  | some store =>
    dsimp only
    split
    · exact List.forall_mem_nil _
    · exact List.forall_mem_singleton.mpr (he _ (.marker hs))

section Jumps

variable (hjump : ∀ j : Flat.Instr, j.isJump = true → P j)

include hjump

theorem all_emitReturn (h : s.code.All P) (kind : BranchKind) (keep drop : UInt32) :
    (s.emitReturn scope kind keep drop).code.All P := by
  rw [emitReturn_eq]
  refine all_emitAll h fun j hj => hjump j ?_
  cases kind with
  | always =>
    rw [List.mem_singleton.mp hj]
    rfl
  | ifNonzero =>
    rcases List.mem_pair.mp hj with rfl | rfl <;> rfl

theorem all_emitBranch (h : s.code.All P) (kind : BranchKind) (depth : ℕ) (keep drop : UInt32) :
    (s.emitBranch scope kind depth keep drop).code.All P := by
  rw [emitBranch]
  split
  · exact all_emitReturn hjump h _ _ _
  · exact h.emit (hjump _ (kind.isJump_instr _ _ _))

theorem all_switch (hP : Flat.Instr.IgnoresTargets P) (h : s.code.All P) {live : Bool}
    (hs : s.switch live = .ok s') : s'.code.All P := by
  rw [switch] at hs
  split at hs
  · next skip onEntry exits branches labels _ =>
    obtain ⟨code, hcode, hs⟩ := Except.bind_eq_ok_iff.mp hs
    cases hs
    refine Flat.Code.All.resolveHere hP ?_ hcode
    cases live with
    | false => exact h
    | true => exact h.emit (hjump _ rfl)
  · cases hs
    exact h

theorem all_leave (hP : Flat.Instr.IgnoresTargets P) (h : s.code.All P) {live : Bool} {results : ℕ}
    (hs : s.leave scope live results = .ok s') : s'.code.All P := by
  cases hl : s.labels with
  | nil =>
    rw [leave_function scope live results hl] at hs
    cases hs
    cases live with
    | false => exact h
    | true => exact h.emit (hjump _ rfl)
  | cons label labels =>
    rw [leave, hl] at hs
    obtain ⟨code, hcode, hs⟩ := Except.bind_eq_ok_iff.mp hs
    cases hs
    exact Flat.Code.All.resolveHere hP h hcode

end Jumps

/-- **One step keeps a property of all code**, if what the instruction can emit has it. -/
theorem all_of_step (hP : Flat.Instr.IgnoresTargets P) {frames : Typing.State} {i : Instr}
    (he : ∀ j, i.Emits j → P j) (h : s.code.All P) (hs : s.step scope frames i = .ok s') :
    s'.code.All P := by
  have hjump : ∀ j : Flat.Instr, j.isJump = true → P j := fun j hj => he j (.jump hj)
  unfold step at hs
  split at hs
  · cases hs
    exact h
  · split at hs
    · cases i with
      | elseMark => exact all_switch hjump hP h hs
      | endMark => exact all_leave hjump hP h hs
      | _ =>
        cases hs
        exact h
    · cases hf : i.flat? with
      | some j =>
        rw [emitInstr_plain s scope frames hf] at hs
        cases hs
        refine all_emitAll h (List.forall_mem_append.mpr ⟨all_markers he _, ?_⟩)
        exact List.forall_mem_singleton.mpr (he j (.plain hf))
      | none =>
        cases i with
        | elseMark => exact all_switch hjump hP h hs
        | endMark => exact all_leave hjump hP h hs
        | nop | block _ | loop _ =>
          cases hs
          exact h
        | unreachable | ifThen _ =>
          cases hs
          exact h.emit (hjump _ rfl)
        | br d | brIf d =>
          cases hs
          exact all_emitBranch hjump h _ _ _ _
        | ret =>
          cases hs
          exact all_emitReturn hjump h _ _ _
        | brTable labels fallback =>
          cases hs
          rw [emitTable_eq]
          refine Flat.Code.All.emit ?_ (he _ (.table rfl _ (List.length_map _) _))
          show (s.mark _).code.All P
          rw [mark_code]
          exact h
        | _ => cases hf

end Lowering.State

/-- **The walk over a body keeps a property of all code**, if what the tokens of the format emit has it. -/
theorem Subject.all_of_lower {P : Flat.Instr → Prop} {subject : Subject}
    (hP : Flat.Instr.IgnoresTargets P)
    (he : ∀ (t : Token) (bs : List UInt8) (depth : ℕ) (i : Instr), t.Encoded bs →
      t.resolve subject.scope depth = some i → ∀ j, i.Emits j → P j)
    {frames : Typing.State} {s : State} {bytes : List UInt8} {code : Flat.Code}
    (hs : s.code.All P) (h : subject.lower frames s bytes = .ok code) : code.All P := by
  induction hn : bytes.length using Nat.strong_induction_on generalizing frames s bytes with
  | _ n ih =>
    subst hn
    cases bytes with
    | nil => exact absurd h lower_nil
    | cons op bytes =>
      obtain ⟨a, low, ha, hlow, hnext⟩ := lower_cons_eq_ok_iff.mp h
      obtain ⟨t, bs, ht, -, hres, -⟩ := Typing.State.exists_token_of_accept ha
      have hall : low.code.All P := State.all_of_step hP (he t _ _ _ ht hres) hs hlow
      have hlt : a.rest.length < (op :: bytes).length :=
        Nat.lt_succ_of_le (Typing.State.suffix_of_accept ha).length_le
      cases hf : a.next with
      | none =>
        rw [hf] at hnext
        rw [← hnext.2]
        exact hall
      | some frames' =>
        rw [hf] at hnext
        exact ih _ hlt hall hnext rfl

/-- The code of a function starts with its locals, and the rest is emitted by its body. -/
theorem Function.all_of_code {P : Flat.Instr → Prop} {f : Function} {space : IndexSpace}
    {code : Flat.Code} (hP : Flat.Instr.IgnoresTargets P) (hlocals : ∀ n, P (.locals n))
    (he : ∀ (t : Token) (bs : List UInt8) (depth : ℕ) (i : Instr), t.Encoded bs →
      t.resolve (f.subject space).scope depth = some i → ∀ j, i.Emits j → P j)
    (h : (f.subject space).lower f.start.frames f.start.low f.body.bytes = .ok code) :
    code.All P := by
  refine Subject.all_of_lower hP he ?_ h
  rw [start, prologue]
  split
  · exact Flat.Code.all_empty
  · exact Flat.Code.all_empty.emit (hlocals _)

theorem Function.all_of_lower {P : Flat.Instr → Prop} {f g : Function} {space : IndexSpace}
    (hP : Flat.Instr.IgnoresTargets P) (hlocals : ∀ n, P (.locals n))
    (he : ∀ (t : Token) (bs : List UInt8) (depth : ℕ) (i : Instr), t.Encoded bs →
      t.resolve (f.subject space).scope depth = some i → ∀ j, i.Emits j → P j)
    (h : f.lower space = .ok g) :
    ∃ code : Flat.Code, g = { f with body := .lowered code.bytes } ∧ code.All P := by
  obtain ⟨code, -, hcode, hg⟩ := lower_eq_ok_iff.mp h
  exact ⟨code, hg, all_of_code hP hlocals he hcode⟩

end FlatWasm
