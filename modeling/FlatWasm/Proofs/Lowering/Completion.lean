import Mathlib
import FlatWasm.Proofs.Flow.Layout

/-!
# From code in the making to finished code

At some point of the pass, the code so far has targets that are still to be filled in, and labels say which.  A `Mark`
is what a label will have been given in the end: the offset of its target, for an `if` the offset of its second branch,
and what is selected where its branches arrive.  `Completes code marks s` says that finished code starts with the code of
`s`, where the slots of each label have got the target of its mark.

The lemmas of this module go backward.  If finished code completes the state after a step, it completes the state
before it, and what the step emitted stands in the finished code with its final targets.  So the marks are known before
the code that needs them: an `end` says where its label is, and from there the marks are carried to the branches.

## Why the outer label wins

If a slot belonged to two labels, the outer one would be resolved later.  `pending` is defined with this order, and so
no step has to show that slots are disjoint.  Only where a slot is new does it matter that no other label has it, and
there it is clear: a label has slots of the code so far.
-/

namespace FlatWasm.Lowering

open Flat (Slot Spells)

/-- What a label is given in the end. -/
structure Mark where
  /-- The offset that branches go to. -/
  target : ℕ
  /-- For the first branch of an `if`: the offset of the second. -/
  skip : ℕ := 0
  /-- What is certainly selected at the target. -/
  selected : Selection

/-- The target that a label gives to a slot. -/
def Label.assigned (l : Label) (m : Mark) (σ : Slot) : Option UInt32 :=
  if σ ∈ l.exits then some (UInt32.ofNat m.target)
  else
    match l.kind with
    | .ifThen skip _ => if σ = skip then some (UInt32.ofNat m.skip) else none
    | _ => none

/-- The target that a slot is given in the end, if it waits for one. -/
def pending : List Label → List Mark → Slot → Option UInt32
  | l :: ls, m :: ms, σ => (pending ls ms σ).or (l.assigned m σ)
  | _, _, _ => none

/-- A label and its mark fit. -/
structure Mark.Agrees (m : Mark) (l : Label) : Prop where
  loop : ∀ entry, l.kind = .loop entry → entry = UInt32.ofNat m.target ∧ m.selected = .unknown
  branches : ∀ b, l.branches = some b → m.selected ≤ b

/-- Finished code starts with the code of `s`, where slots have the targets of the marks. -/
structure Completes (code : List Flat.Instr) (marks : List Mark) (s : State) : Prop where
  agrees : List.Forall₂ Mark.Agrees marks s.labels
  filled : ∃ tail, code = (s.code.retarget (pending s.labels marks)).list ++ tail

/-! ## New slots -/

theorem assigned_eq_none {l : Label} {m : Mark} {σ : Slot} (h : σ ∉ l.slots) :
    l.assigned m σ = none := by
  obtain ⟨kind, exits, branches⟩ := l
  cases kind with
  | ifThen skip onEntry =>
    have h' : σ ∉ exits ∧ σ ≠ skip := by
      rw [Label.slots, List.mem_append, List.mem_singleton, not_or] at h
      exact h
    simp only [Label.assigned, if_neg h'.1, if_neg h'.2]
  | block => simp only [Label.assigned, if_neg (show σ ∉ exits from h)]
  | loop entry => simp only [Label.assigned, if_neg (show σ ∉ exits from h)]

/-- A slot that no label has waits for nothing. -/
theorem pending_eq_none {labels : List Label} {marks : List Mark} {σ : Slot}
    (h : ∀ l ∈ labels, σ ∉ l.slots) : pending labels marks σ = none := by
  induction labels generalizing marks with
  | nil => cases marks <;> rfl
  | cons l ls ih =>
    cases marks with
    | nil => rfl
    | cons m ms =>
      rw [List.forall_mem_cons] at h
      rw [pending, ih h.2, assigned_eq_none h.1]
      rfl

namespace State

variable {s : State}

/-- A slot that is not there yet belongs to no label. -/
theorem Sound.notMem_slots (h : s.Sound) {σ : Slot} (hσ : s.code.instrs.size ≤ σ.position) :
    ∀ l ∈ s.labels, σ ∉ l.slots := by
  intro l hl hmem
  have := (h.slots l hl σ hmem).position_lt
  omega

theorem Sound.pending_eq_none (h : s.Sound) (marks : List Mark) {σ : Slot}
    (hσ : s.code.instrs.size ≤ σ.position) : pending s.labels marks σ = none :=
  Lowering.pending_eq_none (h.notMem_slots hσ)

@[simp] theorem labels_emitAll (s : State) (is : List Flat.Instr) :
    (s.emitAll is).labels = s.labels := by
  induction is generalizing s with
  | nil => rfl
  | cons i is ih => rw [emitAll_cons, ih]; rfl

@[simp] theorem selected_emitAll (s : State) (is : List Flat.Instr) :
    (s.emitAll is).selected = s.selected := by
  induction is generalizing s with
  | nil => rfl
  | cons i is ih => rw [emitAll_cons, ih]; rfl

theorem size_emitAll (s : State) (is : List Flat.Instr) :
    (s.emitAll is).code.size = s.code.size + (Flat.encode is).length := by
  induction is generalizing s with
  | nil => rfl
  | cons i is ih =>
    rw [emitAll_cons, ih, Flat.length_encode_cons]
    exact Nat.add_assoc _ _ _

theorem list_retarget_emitAll {f : Slot → Option UInt32} (is : List Flat.Instr)
    (hf : ∀ σ : Slot, s.code.instrs.size ≤ σ.position → f σ = none) :
    ((s.emitAll is).code.retarget f).list = (s.code.retarget f).list ++ is := by
  induction is generalizing s with
  | nil => simp
  | cons i is ih =>
    have hnew : (fun k => f (s.code.nextSlot k)) = fun _ => none := by
      funext k
      exact hf _ (Nat.le_refl _)
    have hf' : ∀ σ : Slot, (s.emit i).code.instrs.size ≤ σ.position → f σ = none := by
      intro σ hσ
      have hσ' : (s.code.emit i).instrs.size ≤ σ.position := hσ
      rw [Flat.Code.size_instrs_emit] at hσ'
      exact hf σ (by omega)
    rw [emitAll_cons, ih hf']
    show ((s.code.emit i).retarget f).list ++ is = _
    rw [Flat.Code.list_retarget_emit, hnew, Flat.Instr.retarget_none, List.append_assoc]
    rfl

theorem Sound.length_encode_retarget (h : s.Sound) (f : Slot → Option UInt32) :
    (Flat.encode (s.code.retarget f).list).length = s.code.size := by
  rw [Flat.Code.length_encode_retarget]
  exact h.sized.symm

end State

/-! ## Backward over what is emitted -/

variable {code : List Flat.Instr} {marks : List Mark} {s : State}

theorem Completes.of_emitAll {is : List Flat.Instr} (hs : s.Sound)
    (h : Completes code marks (s.emitAll is)) :
    Completes code marks s ∧ Spells code s.code.size is := by
  obtain ⟨tail, htail⟩ := h.filled
  rw [State.labels_emitAll,
    State.list_retarget_emitAll is fun σ hσ => hs.pending_eq_none marks hσ] at htail
  have hagrees := h.agrees
  rw [State.labels_emitAll] at hagrees
  refine ⟨⟨hagrees, is ++ tail, ?_⟩, (s.code.retarget (pending s.labels marks)).list, tail, ?_, ?_⟩
  · rw [htail, List.append_assoc]
  · rw [htail, List.append_assoc]
  · exact hs.length_encode_retarget _

/-- What is selected does not matter to the code. -/
theorem Completes.of_selected {selected : Selection}
    (h : Completes code marks { s with selected }) : Completes code marks s :=
  ⟨h.agrees, h.filled⟩

/-! ## Backward over branches -/

/-- Whether a label is the start of a loop. -/
def Label.isLoop (l : Label) : Bool :=
  match l.kind with
  | .loop _ => true
  | _ => false

@[simp] theorem isLoop_branchFrom (l : Label) (σ : Slot) (selected : Selection) :
    (l.branchFrom σ selected).isLoop = l.isLoop := by
  obtain ⟨kind, exits, branches⟩ := l
  cases kind <;> rfl

theorem assigned_branchFrom_of_ne {l : Label} {m : Mark} {σ σ' : Slot} {selected : Selection}
    (h : σ' ≠ σ) : (l.branchFrom σ selected).assigned m σ' = l.assigned m σ' := by
  obtain ⟨kind, exits, branches⟩ := l
  cases kind with
  | loop entry => rfl
  | block => simp [Label.branchFrom, Label.addExit, Label.assigned, h]
  | ifThen skip onEntry => simp [Label.branchFrom, Label.addExit, Label.assigned, h]

theorem assigned_branchFrom_self {l : Label} {m : Mark} {σ : Slot} {selected : Selection}
    (h : σ ∉ l.slots) : (l.branchFrom σ selected).assigned m σ =
      if l.isLoop then none else some (UInt32.ofNat m.target) := by
  obtain ⟨kind, exits, branches⟩ := l
  cases kind with
  | loop entry => exact assigned_eq_none h
  | block => simp [Label.branchFrom, Label.addExit, Label.assigned, Label.isLoop]
  | ifThen skip onEntry => simp [Label.branchFrom, Label.addExit, Label.assigned, Label.isLoop]

theorem pending_modify_of_ne {labels : List Label} {d : ℕ} {σ σ' : Slot} {selected : Selection}
    (h : σ' ≠ σ) :
    pending (labels.modify d (·.branchFrom σ selected)) marks σ' = pending labels marks σ' := by
  induction labels generalizing marks d with
  | nil => simp
  | cons l ls ih =>
    cases marks with
    | nil => cases d <;> rfl
    | cons m ms =>
      cases d with
      | zero =>
        rw [List.modify_zero_cons, pending, pending, assigned_branchFrom_of_ne h]
      | succ d => rw [List.modify_succ_cons, pending, pending, ih]

theorem pending_modify_self {labels : List Label} {d : ℕ} {σ : Slot} {selected : Selection}
    (h : ∀ l ∈ labels, σ ∉ l.slots) :
    pending (labels.modify d (·.branchFrom σ selected)) marks σ =
      (labels[d]?.bind fun l => marks[d]?.bind fun m =>
        if l.isLoop then none else some (UInt32.ofNat m.target)) := by
  induction labels generalizing marks d with
  | nil => cases marks <;> simp [pending]
  | cons l ls ih =>
    rw [List.forall_mem_cons] at h
    cases marks with
    | nil => cases d <;> simp [pending]
    | cons m ms =>
      cases d with
      | zero =>
        rw [List.modify_zero_cons, pending, pending_eq_none h.2, assigned_branchFrom_self h.1]
        rfl
      | succ d =>
        rw [List.modify_succ_cons, pending, ih h.2, assigned_eq_none h.1]
        simp

namespace State

theorem pending_markLabels_of_notMem {labels : List Label} {es : List (ℕ × Slot)}
    {selected : Selection} {σ : Slot} (h : ∀ e ∈ es, e.2 ≠ σ) :
    pending (markLabels selected es labels) marks σ = pending labels marks σ := by
  induction es generalizing labels with
  | nil => rfl
  | cons e es ih =>
    rw [List.forall_mem_cons] at h
    rw [markLabels, List.foldl_cons, ← markLabels, ih h.2, pending_modify_of_ne (Ne.symm h.1)]

/-- **A new slot gets the target of the label that it is noted at.**  The start of a loop is known when the branch is
emitted, and the function has no target. -/
theorem pending_markLabels {labels : List Label} {es : List (ℕ × Slot)} {selected : Selection}
    {d : ℕ} {σ : Slot} (hes : (es.map Prod.snd).Nodup)
    (hnew : ∀ e ∈ es, ∀ l ∈ labels, e.2 ∉ l.slots) (he : (d, σ) ∈ es) :
    pending (markLabels selected es labels) marks σ =
      (labels[d]?.bind fun l => marks[d]?.bind fun m =>
        if l.isLoop then none else some (UInt32.ofNat m.target)) := by
  induction es generalizing labels with
  | nil => cases he
  | cons e es ih =>
    rw [List.map_cons, List.nodup_cons] at hes
    rw [List.forall_mem_cons] at hnew
    rw [markLabels, List.foldl_cons, ← markLabels]
    rcases List.mem_cons.mp he with rfl | he
    · -- the slot of the first branch is not noted again
      have hne : ∀ e ∈ es, e.2 ≠ σ := by
        intro e he hσ
        exact hes.1 (List.mem_map.mpr ⟨e, he, hσ⟩)
      rw [pending_markLabels_of_notMem hne, pending_modify_self hnew.1]
    · have hnew' : ∀ e' ∈ es, ∀ l ∈ labels.modify e.1 (·.branchFrom e.2 selected),
          e'.2 ∉ l.slots := by
        intro e' he' l hl hmem
        obtain ⟨k, hk, rfl⟩ := List.mem_iff_getElem.mp hl
        rw [List.length_modify] at hk
        rw [List.getElem_modify] at hmem
        split at hmem
        · rcases mem_slots_branchFrom hmem with hσ | hmem
          · exact hes.1 (List.mem_map.mpr ⟨e', he', hσ⟩)
          · exact hnew.2 e' he' _ (List.getElem_mem hk) hmem
        · exact hnew.2 e' he' _ (List.getElem_mem hk) hmem
      rw [ih hes.2 hnew' he, List.getElem?_modify]
      cases labels[d]? with
      | none => rfl
      | some l =>
        by_cases hd : e.1 = d <;> simp [hd]

end State

theorem agrees_of_branchFrom {m : Mark} {l : Label} {σ : Slot} {selected : Selection}
    (h : m.Agrees (l.branchFrom σ selected)) : m.Agrees l ∧ m.selected ≤ selected := by
  obtain ⟨kind, exits, branches⟩ := l
  have hadd : ∀ {b : Selection}, some (branches.elim selected (·.meet selected)) = some b →
      m.selected ≤ b → (∀ b', branches = some b' → m.selected ≤ b') ∧ m.selected ≤ selected := by
    intro b hb hle
    cases hb
    cases branches with
    | none => exact ⟨(by intro b' hb'; cases hb'), hle⟩
    | some b =>
      refine ⟨?_, Selection.le_trans hle (Selection.meet_le_right _ _)⟩
      intro b' hb'
      cases hb'
      exact Selection.le_trans hle (Selection.meet_le_left _ _)
  cases kind with
  | loop entry =>
    refine ⟨h, ?_⟩
    rw [(h.loop entry rfl).2]
    exact Selection.unknown_le _
  | block =>
    obtain ⟨hb, hs⟩ := hadd rfl (h.branches _ rfl)
    exact ⟨⟨(by intro entry hk; cases hk), hb⟩, hs⟩
  | ifThen skip onEntry =>
    obtain ⟨hb, hs⟩ := hadd rfl (h.branches _ rfl)
    exact ⟨⟨(by intro entry hk; cases hk), hb⟩, hs⟩

theorem agrees_of_modify {labels : List Label} {d : ℕ} {σ : Slot} {selected : Selection}
    (h : List.Forall₂ Mark.Agrees marks (labels.modify d (·.branchFrom σ selected))) :
    List.Forall₂ Mark.Agrees marks labels ∧
      ∀ m, marks[d]? = some m → m.selected ≤ selected := by
  induction labels generalizing marks d with
  | nil =>
    rw [List.modify_nil] at h
    cases h
    exact ⟨.nil, by simp⟩
  | cons l ls ih =>
    cases d with
    | zero =>
      rw [List.modify_zero_cons] at h
      cases h with
      | cons hm hms =>
        obtain ⟨hm, hs⟩ := agrees_of_branchFrom hm
        exact ⟨.cons hm hms, by simpa using hs⟩
    | succ d =>
      rw [List.modify_succ_cons] at h
      cases h with
      | cons hm hms =>
        obtain ⟨hms, hs⟩ := ih hms
        exact ⟨.cons hm hms, by simpa using hs⟩

theorem agrees_of_markLabels {labels : List Label} {es : List (ℕ × Slot)} {selected : Selection}
    (h : List.Forall₂ Mark.Agrees marks (State.markLabels selected es labels)) :
    List.Forall₂ Mark.Agrees marks labels ∧
      ∀ e ∈ es, ∀ m, marks[e.1]? = some m → m.selected ≤ selected := by
  induction es generalizing labels with
  | nil => exact ⟨h, by simp⟩
  | cons e es ih =>
    obtain ⟨h', hes⟩ := ih h
    obtain ⟨hl, he⟩ := agrees_of_modify h'
    refine ⟨hl, ?_⟩
    rw [List.forall_mem_cons]
    exact ⟨he, hes⟩

/-- **Backward over a branch or a branch table.**  It stands in the finished code with the targets of the marks, and
what is selected at these targets is selected where it stands. -/
theorem Completes.of_mark_emit {es : List (ℕ × Slot)} {i : Flat.Instr} (hs : s.Sound)
    (hes : ∀ e ∈ es, ∃ k, e.2 = s.code.nextSlot k) (h : Completes code marks ((s.mark es).emit i)) :
    Completes code marks s ∧
      Spells code s.code.size [i.retarget fun k =>
        pending (State.markLabels s.selected es s.labels) marks (s.code.nextSlot k)] ∧
      ∀ e ∈ es, ∀ m, marks[e.1]? = some m → m.selected ≤ s.selected := by
  rw [State.mark_eq] at h
  obtain ⟨hagrees, hsel⟩ := agrees_of_markLabels h.agrees
  obtain ⟨tail, htail⟩ := h.filled
  -- the code before the branch does not change
  have hbefore : s.code.retarget (pending (State.markLabels s.selected es s.labels) marks) =
      s.code.retarget (pending s.labels marks) := by
    refine Flat.Code.retarget_congr fun σ hσ => State.pending_markLabels_of_notMem fun e he heq => ?_
    obtain ⟨k, hk⟩ := hes e he
    rw [← heq, hk] at hσ
    exact Nat.lt_irrefl _ hσ
  have htail' : code = ((s.code.emit i).retarget
      (pending (State.markLabels s.selected es s.labels) marks)).list ++ tail := htail
  rw [Flat.Code.list_retarget_emit, hbefore, List.append_assoc] at htail'
  exact ⟨⟨hagrees, _, htail'⟩, ⟨_, tail, htail', hs.length_encode_retarget _⟩, hsel⟩

theorem retarget_instr (kind : BranchKind) (keep drop target : UInt32) (f : ℕ → Option UInt32) :
    (kind.instr keep drop target).retarget f = kind.instr keep drop ((f 0).getD target) := by
  cases kind <;> rw [BranchKind.instr, BranchKind.instr] <;> split <;> rfl

/-- The offset of the start of a loop is what a branch to it is emitted with. -/
theorem Mark.Agrees.getD_target {m : Mark} {l : Label} (h : m.Agrees l) :
    (if l.isLoop then none else some (UInt32.ofNat m.target)).getD l.target =
      UInt32.ofNat m.target := by
  obtain ⟨kind, exits, branches⟩ := l
  cases kind with
  | loop entry => exact (h.loop entry rfl).1
  | _ => rfl

theorem agrees_getElem? {labels : List Label} {d : ℕ} {l : Label}
    (h : List.Forall₂ Mark.Agrees marks labels) (hl : labels[d]? = some l) :
    ∃ m, marks[d]? = some m ∧ m.Agrees l := by
  obtain ⟨hd, rfl⟩ := List.getElem?_eq_some_iff.mp hl
  have hd' : d < marks.length := by rwa [h.length_eq]
  exact ⟨marks[d], List.getElem?_eq_getElem hd', h.get hd' hd⟩

theorem getElem?_marks_eq_none {labels : List Label} {d : ℕ}
    (h : List.Forall₂ Mark.Agrees marks labels) (hl : labels[d]? = none) : marks[d]? = none := by
  rw [List.getElem?_eq_none_iff, h.length_eq]
  exact List.getElem?_eq_none_iff.mp hl

/-- The code of a branch to a label with a mark, or out of the function. -/
def branchCode (scope : Scope) (kind : BranchKind) (pc : ℕ) (keep drop : UInt32) :
    Option Mark → List Flat.Instr
  | some m => [kind.instr keep drop (UInt32.ofNat m.target)]
  | none => State.returnCode scope kind pc keep drop

/-- Backward over a branch. -/
theorem Completes.of_emitBranch {scope : Scope} {kind : BranchKind} {d : ℕ} {keep drop : UInt32}
    (hs : s.Sound) (h : Completes code marks (s.emitBranch scope kind d keep drop)) :
    Completes code marks s ∧
      Spells code s.code.size (branchCode scope kind s.code.size keep drop marks[d]?) ∧
      (s.emitBranch scope kind d keep drop).code.size = s.code.size +
        (Flat.encode (branchCode scope kind s.code.size keep drop marks[d]?)).length ∧
      ∀ m, marks[d]? = some m → m.selected ≤ s.selected := by
  rw [State.emitBranch] at h ⊢
  cases hl : s.labels[d]? with
  | none =>
    rw [hl] at h
    dsimp only at h ⊢
    rw [State.emitReturn_eq] at h ⊢
    obtain ⟨hc, hspell⟩ := h.of_emitAll hs
    rw [getElem?_marks_eq_none hc.agrees hl]
    exact ⟨hc, hspell, State.size_emitAll _ _, by simp⟩
  | some l =>
    rw [hl] at h
    have h' : Completes code marks
        ((s.mark [(d, s.code.nextSlot)]).emit (kind.instr keep drop l.target)) := h
    have hnew : ∀ e ∈ [(d, s.code.nextSlot)], ∃ k, e.2 = s.code.nextSlot k := by
      intro e he
      exact ⟨0, by rw [List.mem_singleton.mp he]⟩
    obtain ⟨hc, hspell, hsel⟩ := h'.of_mark_emit hs hnew
    obtain ⟨m, hm, hagrees⟩ := agrees_getElem? hc.agrees hl
    have hslot : pending (State.markLabels s.selected [(d, s.code.nextSlot)] s.labels) marks
        s.code.nextSlot = if l.isLoop then none else some (UInt32.ofNat m.target) := by
      rw [State.pending_markLabels (by simp)
        (fun e he => hs.notMem_slots (by rw [List.mem_singleton.mp he]; exact Nat.le_refl _))
        (List.mem_singleton.mpr rfl), hl, hm]
      rfl
    rw [retarget_instr, hslot, hagrees.getD_target] at hspell
    rw [hm]
    refine ⟨hc, hspell, ?_, fun m' hm' => hsel _ (List.mem_singleton.mpr rfl) m' (hm.trans hm')⟩
    rw [branchCode, Flat.length_encode_singleton]
    show s.code.size + (kind.instr keep drop l.target).size = _
    rw [← Flat.Instr.size_retarget (fun _ => some (UInt32.ofNat m.target)) (kind.instr _ _ _),
      retarget_instr]
    rfl

/-- The entry of a branch table for a label with a mark, or out of the function. -/
def branchEntry (scope : Scope) (drop : UInt32) : Option Mark → Flat.Entry
  | some m => ⟨drop, UInt32.ofNat m.target⟩
  | none => ⟨drop + scope.localCount, Flat.returnTarget⟩

/-- Backward over a branch table. -/
theorem Completes.of_emitTable {scope : Scope} {keep : UInt32} {dropTo : ℕ → UInt32}
    {depths : List ℕ} {fallback : ℕ} (hs : s.Sound)
    (h : Completes code marks (s.emitTable scope keep dropTo depths fallback)) :
    Completes code marks s ∧
      Spells code s.code.size [.brTable keep
        (depths.map fun d => branchEntry scope (dropTo d) marks[d]?)
        (branchEntry scope (dropTo fallback) marks[fallback]?)] ∧
      (s.emitTable scope keep dropTo depths fallback).code.size = s.code.size +
        (Flat.Instr.brTable keep (depths.map fun d => branchEntry scope (dropTo d) marks[d]?)
          (branchEntry scope (dropTo fallback) marks[fallback]?)).size ∧
      ∀ d ∈ depths ++ [fallback], ∀ m, marks[d]? = some m → m.selected ≤ s.selected := by
  rw [State.emitTable_eq] at h ⊢
  have hmem : ∀ {d k : ℕ}, (depths ++ [fallback])[k]? = some d →
      (d, s.code.nextSlot k) ∈ s.tableMarks (depths ++ [fallback]) := by
    intro d k hk
    exact List.mem_map.mpr ⟨(d, k), List.mk_mem_zipIdx_iff_getElem?.mpr hk, rfl⟩
  have hnew : ∀ e ∈ s.tableMarks (depths ++ [fallback]), ∃ k, e.2 = s.code.nextSlot k := by
    intro e he
    obtain ⟨⟨d, k⟩, -, rfl⟩ := List.mem_map.mp he
    exact ⟨k, rfl⟩
  have hnodup : ((s.tableMarks (depths ++ [fallback])).map Prod.snd).Nodup := by
    rw [State.tableMarks, List.map_map]
    change (List.map ((fun k => s.code.nextSlot k) ∘ Prod.snd)
      (depths ++ [fallback]).zipIdx).Nodup
    rw [← List.map_map]
    refine List.Nodup.map ?_ ?_
    · intro a b hab
      exact congrArg Slot.entry hab
    · rw [List.zipIdx_map_snd]
      exact List.nodup_range' 1
  obtain ⟨hc, hspell, hsel⟩ := h.of_mark_emit hs hnew
  -- every entry gets the target of its label
  have hentry : ∀ {d k : ℕ}, (depths ++ [fallback])[k]? = some d →
      ({ s.tableEntry scope d (dropTo d) with
        target := (pending (State.markLabels s.selected (s.tableMarks (depths ++ [fallback]))
          s.labels) marks (s.code.nextSlot k)).getD (s.tableEntry scope d (dropTo d)).target } :
            Flat.Entry) = branchEntry scope (dropTo d) marks[d]? := by
    intro d k hk
    rw [State.pending_markLabels hnodup (fun e he => hs.notMem_slots (by
      obtain ⟨k, hk⟩ := hnew e he
      rw [hk]
      exact Nat.le_refl _)) (hmem hk), State.tableEntry]
    cases hl : s.labels[d]? with
    | none =>
      rw [getElem?_marks_eq_none hc.agrees hl]
      rfl
    | some l =>
      obtain ⟨m, hm, hagrees⟩ := agrees_getElem? hc.agrees hl
      rw [hm]
      exact congrArg _ hagrees.getD_target
  have hinstr : (Flat.Instr.brTable keep (depths.map fun d => s.tableEntry scope d (dropTo d))
      (s.tableEntry scope fallback (dropTo fallback))).retarget (fun k =>
        pending (State.markLabels s.selected (s.tableMarks (depths ++ [fallback])) s.labels) marks
          (s.code.nextSlot k)) =
      .brTable keep (depths.map fun d => branchEntry scope (dropTo d) marks[d]?)
        (branchEntry scope (dropTo fallback) marks[fallback]?) := by
    rw [Flat.Instr.retarget, List.length_map, hentry (by simp)]
    congr 1
    refine List.ext_getElem (by simp) fun k hk _ => ?_
    rw [List.length_mapIdx, List.length_map] at hk
    rw [List.getElem_mapIdx, List.getElem_map, List.getElem_map]
    exact hentry (by rw [List.getElem?_append_left hk, List.getElem?_eq_getElem hk])
  rw [hinstr] at hspell
  refine ⟨hc, hspell, ?_, fun d hd m hm => ?_⟩
  · show (s.mark _).code.size + Flat.Instr.size _ = _
    rw [State.mark_code, ← hinstr, Flat.Instr.size_retarget]
  · obtain ⟨k, hk⟩ := List.mem_iff_getElem?.mp hd
    exact hsel _ (hmem hk) m hm

/-! ## Backward over the marks of structure -/

theorem Completes.of_pushLabel {kind : LabelKind} {m : Mark}
    (hk : ∀ skip onEntry, kind ≠ .ifThen skip onEntry)
    (h : Completes code (m :: marks) (s.pushLabel kind)) : Completes code marks s := by
  have hnone : ∀ σ, Label.assigned { kind } m σ = none := by
    intro σ
    apply assigned_eq_none
    cases kind with
    | ifThen skip onEntry => exact absurd rfl (hk skip onEntry)
    | _ => exact List.not_mem_nil
  have hpending : pending (s.pushLabel kind).labels (m :: marks) = pending s.labels marks := by
    funext σ
    rw [State.pushLabel, pending, hnone, Option.or_none]
  obtain ⟨tail, htail⟩ := h.filled
  rw [hpending] at htail
  cases h.agrees with
  | cons _ hms => exact ⟨hms, tail, htail⟩

theorem Completes.of_enterIf {m : Mark} (hs : s.Sound) (h : Completes code (m :: marks) s.enterIf) :
    Completes code marks s ∧ Spells code s.code.size [.jumpUnless (UInt32.ofNat m.skip)] := by
  have hpending : ∀ σ, pending s.enterIf.labels (m :: marks) σ =
      (pending s.labels marks σ).or
        (if σ = s.code.nextSlot then some (UInt32.ofNat m.skip) else none) := by
    intro σ
    show (pending s.labels marks σ).or (Label.assigned _ m σ) = _
    simp [Label.assigned]
  have hbefore : s.code.retarget (pending s.enterIf.labels (m :: marks)) =
      s.code.retarget (pending s.labels marks) := by
    refine Flat.Code.retarget_congr fun σ hσ => ?_
    have hne : σ ≠ s.code.nextSlot := by
      rintro rfl
      exact Nat.lt_irrefl _ hσ
    rw [hpending, if_neg hne, Option.or_none]
  have hslot : pending s.enterIf.labels (m :: marks) s.code.nextSlot =
      some (UInt32.ofNat m.skip) := by
    rw [hpending, hs.pending_eq_none marks (Nat.le_refl _), if_pos rfl]
    rfl
  obtain ⟨tail, htail⟩ := h.filled
  have htail' : code = ((s.code.emit (.jumpUnless 0)).retarget
      (pending s.enterIf.labels (m :: marks))).list ++ tail := htail
  rw [Flat.Code.list_retarget_emit, hbefore, List.append_assoc, Flat.Instr.retarget, hslot] at htail'
  cases h.agrees with
  | cons _ hms =>
    exact ⟨⟨hms, _, htail'⟩, _, tail, htail', hs.length_encode_retarget _⟩

/-- What is selected after a frame is selected on every way to its end. -/
theorem selectionAfter_le_falls (l : Label) (selected : Selection) :
    l.selectionAfter (some selected) ≤ selected :=
  Selection.meetAll_le (by simp)

theorem selectionAfter_le_branches {l : Label} {b : Selection} (falls : Option Selection)
    (h : l.branches = some b) : l.selectionAfter falls ≤ b :=
  Selection.meetAll_le (by simp [h])

theorem selectionAfter_le_skipped {l : Label} {skip : Slot} {onEntry : Selection}
    (falls : Option Selection) (h : l.kind = .ifThen skip onEntry) :
    l.selectionAfter falls ≤ onEntry :=
  Selection.meetAll_le (by simp [h])

/-- Backward over the end of a frame whose label is at its end. -/
theorem Completes.of_leave {l : Label} {labels : List Label} {falls : Option Selection}
    (hl : s.labels = l :: labels) (hloop : l.isLoop = false)
    (h : Completes code marks
      { code := s.code.retarget fun σ => if σ ∈ l.slots then some s.code.offset else none
        selected := l.selectionAfter falls
        labels }) :
    Completes code (⟨s.code.size, s.code.size, l.selectionAfter falls⟩ :: marks) s := by
  have hassigned : ∀ σ, l.assigned ⟨s.code.size, s.code.size, l.selectionAfter falls⟩ σ =
      if σ ∈ l.slots then some s.code.offset else none := by
    intro σ
    by_cases hσ : σ ∈ l.slots
    · rw [if_pos hσ]
      obtain ⟨kind, exits, branches⟩ := l
      cases kind with
      | loop entry => cases hloop
      | block => exact if_pos hσ
      | ifThen skip onEntry =>
        rw [Label.slots, List.mem_append, List.mem_singleton] at hσ
        by_cases he : σ ∈ exits
        · exact if_pos he
        · rw [Label.assigned, if_neg he]
          exact if_pos (hσ.resolve_left he)
    · rw [if_neg hσ]
      exact assigned_eq_none hσ
  obtain ⟨tail, htail⟩ := h.filled
  dsimp only at htail
  rw [Flat.Code.retarget_retarget] at htail
  refine ⟨?_, tail, ?_⟩
  · rw [hl]
    refine .cons ⟨?_, fun b hb => selectionAfter_le_branches falls hb⟩ h.agrees
    intro entry hk
    rw [Label.isLoop, hk] at hloop
    cases hloop
  · rw [htail, hl]
    congr 2
    congr 1
    funext σ
    rw [pending, hassigned]

/-- Backward over the end of a loop, whose label is at its start. -/
theorem Completes.of_leave_loop {entry : ℕ} {labels : List Label} {selected : Selection}
    (hl : s.labels = { kind := .loop (UInt32.ofNat entry) } :: labels)
    (h : Completes code marks
      { code := s.code.retarget fun σ => if σ ∈ Label.slots { kind := .loop (UInt32.ofNat entry) }
          then some s.code.offset else none
        selected
        labels }) :
    Completes code (⟨entry, 0, .unknown⟩ :: marks) s := by
  obtain ⟨tail, htail⟩ := h.filled
  have hslots : Label.slots { kind := .loop (UInt32.ofNat entry) } = [] := rfl
  simp only [hslots, List.not_mem_nil, if_false, Flat.Code.retarget_none] at htail
  refine ⟨?_, tail, ?_⟩
  · rw [hl]
    refine .cons ⟨?_, by intro b hb; cases hb⟩ h.agrees
    intro entry' hk
    cases hk
    exact ⟨rfl, rfl⟩
  · rw [htail, hl]
    congr 2
    congr 1
    funext σ
    rw [pending]
    exact (Option.or_none).symm

/-- Backward over the second half of an `else`, where the jump over the first branch gets its target. -/
theorem Completes.of_resolve_skip {skip : Slot} {onEntry selected : Selection} {exits : List Slot}
    {branches : Option Selection} {labels : List Label} {m : Mark}
    (hl : s.labels = ⟨.ifThen skip onEntry, exits, branches⟩ :: labels)
    (h : Completes code (m :: marks)
      { code := s.code.retarget fun σ => if σ ∈ [skip] then some s.code.offset else none
        selected
        labels := ⟨.block, exits, branches⟩ :: labels }) :
    Completes code ({ m with skip := s.code.size } :: marks) s := by
  obtain ⟨tail, htail⟩ := h.filled
  dsimp only at htail
  rw [Flat.Code.retarget_retarget] at htail
  refine ⟨?_, tail, ?_⟩
  · rw [hl]
    cases h.agrees with
    | cons hm hms => exact .cons ⟨(by intro entry hk; cases hk), hm.branches⟩ hms
  · rw [htail, hl]
    congr 2
    congr 1
    funext σ
    rw [pending, pending, Option.or_assoc]
    congr 1
    by_cases hσ : σ ∈ exits
    · simp [Label.assigned, hσ]
    · simp [Label.assigned, hσ, Flat.Code.offset]

/-- Backward over an `else`. -/
theorem Completes.of_switch {skip : Slot} {onEntry : Selection} {exits : List Slot}
    {branches : Option Selection} {labels : List Label} {live : Bool} {m : Mark} {t : State}
    (hs : s.Sound) (hl : s.labels = ⟨.ifThen skip onEntry, exits, branches⟩ :: labels)
    (ht : t = State.skipElse { s with labels := ⟨.block, exits, branches⟩ :: labels } live)
    (h : Completes code (m :: marks) { t with
      code := t.code.retarget fun σ => if σ ∈ [skip] then some t.code.offset else none
      selected := onEntry }) :
    Completes code ({ m with skip := t.code.size } :: marks) s ∧
      (live = true → Spells code s.code.size [.jump (UInt32.ofNat m.target)] ∧
        m.selected ≤ s.selected) := by
  subst ht
  cases live with
  | false => exact ⟨Completes.of_resolve_skip hl h, by intro hlive; cases hlive⟩
  | true =>
    -- the jump over the second branch is noted at the label of the first
    have hmark : (s.mark [(0, s.code.nextSlot)]).labels =
        ⟨.ifThen skip onEntry, exits ++ [s.code.nextSlot],
          some (branches.elim s.selected (·.meet s.selected))⟩ :: labels := by
      rw [State.mark_eq, hl]
      rfl
    have h' : Completes code ({ m with skip := _ } :: marks)
        ((s.mark [(0, s.code.nextSlot)]).emit (.jump 0)) :=
      Completes.of_resolve_skip hmark h
    have hnew : ∀ e ∈ [(0, s.code.nextSlot)], ∃ k, e.2 = s.code.nextSlot k := by
      intro e he
      exact ⟨0, by rw [List.mem_singleton.mp he]⟩
    obtain ⟨hc, hspell, hsel⟩ := h'.of_mark_emit hs hnew
    have hslot : ∀ n, pending (State.markLabels s.selected [(0, s.code.nextSlot)] s.labels)
        ({ m with skip := n } :: marks) s.code.nextSlot = some (UInt32.ofNat m.target) := by
      intro n
      rw [State.pending_markLabels (by simp)
        (fun e he => hs.notMem_slots (by rw [List.mem_singleton.mp he]; exact Nat.le_refl _))
        (List.mem_singleton.mpr rfl), hl]
      rfl
    have hle := hsel _ (List.mem_singleton.mpr rfl) _ rfl
    rw [Flat.Instr.retarget, hslot] at hspell
    exact ⟨hc, fun _ => ⟨hspell, hle⟩⟩

end FlatWasm.Lowering
