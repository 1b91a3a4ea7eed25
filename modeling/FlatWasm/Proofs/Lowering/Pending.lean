import Mathlib
import FlatWasm.Proofs.Lowering.Completion

/-!
# Slots that wait

A jump forward is emitted with the target 0, and a label notes its slot until the target is known.  This module follows
single slots through the pass.  `State.Advances` says what may happen to a slot between two states: it may wait on, or it
may be given an offset of code that was still to come in the first of them; and a slot that waits for nothing keeps its
target.  Each step advances (`Sound.advances_step`).
-/

namespace FlatWasm

open Lowering Flat

/-! ## The target of a slot -/

namespace Flat

/-- The targets of an instruction, for a branch table those of its entries. -/
def Instr.targets : Instr → List UInt32
  | .jump t | .jumpIf t | .jumpUnless t | .br _ _ t | .brIf _ _ t => [t]
  | .brTable _ entries fallback => (entries ++ [fallback]).map Entry.target
  | _ => []

theorem Instr.length_targets (i : Instr) : i.targets.length = i.targetCount := by
  cases i <;> simp [targets, targetCount]

theorem Instr.targets_retarget (f : ℕ → Option UInt32) (i : Instr) :
    (i.retarget f).targets = i.targets.mapIdx fun k t => (f k).getD t := by
  cases i with
  | brTable keep entries fallback =>
    have hentries : (entries.mapIdx fun k e => ({ e with target := (f k).getD e.target } : Entry)).map
        Entry.target = (entries.map Entry.target).mapIdx fun k t => (f k).getD t :=
      List.ext_getElem (by simp) (by simp)
    simp [retarget, targets, List.mapIdx_append, hentries]
  | _ => rfl

namespace Code

variable {c : Code} {σ : Slot}

/-- The target that a slot names. -/
def target? (c : Code) (σ : Slot) : Option UInt32 :=
  c.list[σ.position]?.bind fun i => i.targets[σ.entry]?

theorem target?_emit (h : c.HasSlot σ) (i : Instr) : (c.emit i).target? σ = c.target? σ := by
  have hlt : σ.position < c.list.length := h.position_lt
  rw [target?, list_emit, List.getElem?_append_left hlt]
  rfl

theorem target?_retarget (f : Slot → Option UInt32) (c : Code) (σ : Slot) :
    (c.retarget f).target? σ = (c.target? σ).map fun t => (f σ).getD t := by
  rw [target?, target?, list_retarget, List.getElem?_mapIdx]
  cases c.list[σ.position]? with
  | none => rfl
  | some i =>
    rw [Option.map_some, Option.bind_some, Option.bind_some, Instr.targets_retarget,
      List.getElem?_mapIdx]

theorem HasSlot.exists_target (h : c.HasSlot σ) : ∃ t, c.target? σ = some t := by
  obtain ⟨i, hi, hlt⟩ := h
  rw [← Instr.length_targets] at hlt
  refine ⟨i.targets[σ.entry], ?_⟩
  rw [target?, ← getElem?_instrs, hi, Option.bind_some, List.getElem?_eq_getElem hlt]

end Code

end Flat

namespace Lowering

/-- A slot waits for the target of a label. -/
def Pends (labels : List Label) (σ : Slot) : Prop :=
  ∃ l ∈ labels, σ ∈ l.slots

theorem pends_cons {l : Label} {labels : List Label} {σ : Slot} :
    Pends (l :: labels) σ ↔ σ ∈ l.slots ∨ Pends labels σ := by
  simp only [Pends, List.mem_cons, exists_eq_or_imp]

namespace State

variable {s s' s'' : State} {σ : Slot}

/-! ## From one state to a later one -/

/-- What may happen to the slots of `s` on the way to `s'`. -/
structure Advances (s s' : State) : Prop where
  size_le : s.code.size ≤ s'.code.size
  hasSlot : ∀ σ, s.code.HasSlot σ → s'.code.HasSlot σ
  pends : ∀ σ, s.code.HasSlot σ → Pends s'.labels σ → Pends s.labels σ
  /-- A slot that waits for nothing keeps its target. -/
  settled : ∀ σ, s.code.HasSlot σ → ¬Pends s.labels σ → s'.code.target? σ = s.code.target? σ
  /-- A slot that waits no longer has the offset of an instruction that was still to come. -/
  resolved : ∀ σ, s.code.HasSlot σ → Pends s.labels σ → ¬Pends s'.labels σ →
    ∃ n, s'.code.target? σ = some (UInt32.ofNat n) ∧ s.code.size ≤ n ∧ n ≤ s'.code.size

theorem Advances.refl (s : State) : s.Advances s :=
  ⟨Nat.le_refl _, fun _ h => h, fun _ _ h => h, fun _ _ _ => rfl, fun _ _ h h' => absurd h h'⟩

theorem Advances.trans (h : s.Advances s') (h' : s'.Advances s'') : s.Advances s'' := by
  refine ⟨Nat.le_trans h.size_le h'.size_le, fun σ hσ => h'.hasSlot σ (h.hasSlot σ hσ),
    fun σ hσ hp => h.pends σ hσ (h'.pends σ (h.hasSlot σ hσ) hp), fun σ hσ hp => ?_,
    fun σ hσ hp hn => ?_⟩
  · rw [h'.settled σ (h.hasSlot σ hσ) fun hp' => hp (h.pends σ hσ hp'), h.settled σ hσ hp]
  · by_cases hmid : Pends s'.labels σ
    · obtain ⟨n, ht, hle, hle'⟩ := h'.resolved σ (h.hasSlot σ hσ) hmid hn
      exact ⟨n, ht, Nat.le_trans h.size_le hle, hle'⟩
    · obtain ⟨n, ht, hle, hle'⟩ := h.resolved σ hσ hp hmid
      exact ⟨n, (h'.settled σ (h.hasSlot σ hσ) hmid).trans ht, hle, Nat.le_trans hle' h'.size_le⟩

theorem hasSlot_emitAll (h : s.code.HasSlot σ) (is : List Flat.Instr) :
    (s.emitAll is).code.HasSlot σ := by
  induction is generalizing s with
  | nil => exact h
  | cons i is ih => exact ih (s := s.emit i) (Code.HasSlot.emit h i)

theorem target?_emitAll (h : s.code.HasSlot σ) (is : List Flat.Instr) :
    (s.emitAll is).code.target? σ = s.code.target? σ := by
  induction is generalizing s with
  | nil => rfl
  | cons i is ih => exact (ih (s := s.emit i) (Code.HasSlot.emit h i)).trans (Code.target?_emit h i)

/-- Code is emitted, and then some slots are given the offset of its end. -/
theorem Advances.of_resolve (is : List Flat.Instr) (slots : List Slot)
    (hc : s'.code = (s.emitAll is).code.retarget fun σ =>
      if σ ∈ slots then some (s.emitAll is).code.offset else none)
    (hp : ∀ σ, s.code.HasSlot σ → (Pends s.labels σ ↔ Pends s'.labels σ ∨ σ ∈ slots)) : s.Advances s' := by
  have hsize : s'.code.size = (s.emitAll is).code.size := by rw [hc, Code.size_retarget]
  have hle := s.le_size_emitAll is
  have htarget : ∀ σ, s.code.HasSlot σ → s'.code.target? σ = (s.code.target? σ).map
      fun t => (if σ ∈ slots then some (s.emitAll is).code.offset else none).getD t := by
    intro σ hσ
    rw [hc, Code.target?_retarget, target?_emitAll hσ]
  refine ⟨by omega, fun σ hσ => ?_, fun σ hσ h => (hp σ hσ).mpr (.inl h), fun σ hσ hn => ?_,
    fun σ hσ h hn => ?_⟩
  · rw [hc]
    exact Code.hasSlot_retarget.mpr (hasSlot_emitAll hσ is)
  · have hmem : σ ∉ slots := fun hmem => hn ((hp σ hσ).mpr (.inr hmem))
    rw [htarget σ hσ, if_neg hmem]
    exact Option.map_id'
  · have hmem : σ ∈ slots := ((hp σ hσ).mp h).resolve_left hn
    obtain ⟨t, ht⟩ := hσ.exists_target
    exact ⟨(s.emitAll is).code.size, by rw [htarget σ hσ, ht, if_pos hmem]; rfl, hle,
      Nat.le_of_eq hsize.symm⟩

/-- Code is emitted, and all slots wait on. -/
theorem Advances.of_emitAll (is : List Flat.Instr) (hc : s'.code = (s.emitAll is).code)
    (hp : ∀ σ, s.code.HasSlot σ → (Pends s.labels σ ↔ Pends s'.labels σ)) : s.Advances s' := by
  refine .of_resolve is [] ?_ fun σ hσ => ?_
  · simp only [List.not_mem_nil, if_false]
    rw [Code.retarget_none, hc]
  · rw [hp σ hσ]
    simp

/-! ## Steps -/

theorem mem_slots_branchFrom_iff {l : Label} {slot : Slot} {selected : Selection} (h : σ ≠ slot) :
    σ ∈ (l.branchFrom slot selected).slots ↔ σ ∈ l.slots := by
  refine ⟨fun hσ => (mem_slots_branchFrom hσ).resolve_left h, fun hσ => ?_⟩
  obtain ⟨kind, exits, branches⟩ := l
  cases kind with
  | loop entry => exact hσ
  | block => exact List.mem_append_left _ hσ
  | ifThen skip onEntry =>
    rcases List.mem_append.mp hσ with hσ | hσ
    · exact List.mem_append_left _ (List.mem_append_left _ hσ)
    · exact List.mem_append_right _ hσ

/-- A branch is noted, and other slots wait as before. -/
theorem pends_modify_iff {labels : List Label} {d : ℕ} {slot : Slot} {selected : Selection}
    (h : σ ≠ slot) : Pends (labels.modify d (·.branchFrom slot selected)) σ ↔ Pends labels σ := by
  induction labels generalizing d with
  | nil => rw [List.modify_nil]
  | cons l labels ih =>
    cases d with
    | zero =>
      rw [List.modify_zero_cons, pends_cons, pends_cons, mem_slots_branchFrom_iff h]
    | succ d =>
      rw [List.modify_succ_cons, pends_cons, pends_cons, ih]

theorem pends_markLabels_iff {labels : List Label} {es : List (ℕ × Slot)} {selected : Selection}
    (h : ∀ e ∈ es, σ ≠ e.2) : Pends (markLabels selected es labels) σ ↔ Pends labels σ := by
  induction es generalizing labels with
  | nil => rfl
  | cons e es ih =>
    obtain ⟨he, hes⟩ := List.forall_mem_cons.mp h
    rw [markLabels, List.foldl_cons, ← markLabels, ih hes, pends_modify_iff he]

/-- A slot that is there is not the slot of the next instruction. -/
theorem ne_nextSlot (h : s.code.HasSlot σ) (k : ℕ) : σ ≠ s.code.nextSlot k := by
  rintro rfl
  exact Nat.lt_irrefl _ h.position_lt

/-- A branch is emitted, and its slots are noted. -/
theorem advances_mark_emit (s : State) (es : List (ℕ × Slot)) (i : Flat.Instr)
    (hes : ∀ e ∈ es, ∃ k, e.2 = s.code.nextSlot k) : s.Advances ((s.mark es).emit i) := by
  refine .of_emitAll [i] (by rw [mark_eq]; rfl) fun σ hσ => ?_
  rw [mark_eq]
  refine (pends_markLabels_iff fun e he => ?_).symm
  obtain ⟨k, hk⟩ := hes e he
  rw [hk]
  exact ne_nextSlot hσ k

theorem advances_emitAll (s : State) (is : List Flat.Instr) : s.Advances (s.emitAll is) :=
  .of_emitAll is rfl fun σ _ => by rw [labels_emitAll]

theorem advances_branch (s : State) (scope : Scope) (kind : BranchKind) (depth : ℕ)
    (keep drop : UInt32) : s.Advances (s.emitBranch scope kind depth keep drop) := by
  rw [emitBranch]
  split
  · rw [emitReturn_eq]
    exact s.advances_emitAll _
  · exact s.advances_mark_emit [(depth, s.code.nextSlot)] _
      (List.forall_mem_singleton.mpr ⟨0, rfl⟩)

theorem advances_table (s : State) (scope : Scope) (keep : UInt32) (dropTo : ℕ → UInt32)
    (depths : List ℕ) (fallback : ℕ) :
    s.Advances (s.emitTable scope keep dropTo depths fallback) := by
  rw [emitTable_eq]
  refine s.advances_mark_emit _ _ fun e he => ?_
  obtain ⟨⟨d, k⟩, -, rfl⟩ := List.mem_map.mp he
  exact ⟨k, rfl⟩

/-- A label is opened; of the slots that were there it has none. -/
theorem advances_open (s : State) (is : List Flat.Instr) (kind : LabelKind) (selected : Selection)
    (hk : ∀ skip onEntry, kind = .ifThen skip onEntry → skip = s.code.nextSlot) :
    s.Advances ({ s.emitAll is with selected }.pushLabel kind) := by
  refine .of_emitAll is rfl fun σ hσ => ?_
  show _ ↔ Pends ({ kind } :: (s.emitAll is).labels) σ
  rw [pends_cons, labels_emitAll]
  refine ⟨.inr, fun h => h.resolve_left fun hslot => ?_⟩
  cases kind with
  | block => cases hslot
  | loop entry => cases hslot
  | ifThen skip onEntry =>
    refine ne_nextSlot hσ 0 ?_
    rw [List.mem_singleton.mp hslot]
    exact hk skip onEntry rfl

theorem Sound.advances_switch (h : s.Sound) (live : Bool) (hs : s.switch live = .ok s') :
    s.Advances s' := by
  cases hl : s.labels with
  | nil =>
    rw [switch, hl] at hs
    cases hs
    exact .refl s
  | cons l labels =>
    obtain ⟨kind, exits, branches⟩ := l
    cases kind with
    | block =>
      rw [switch, hl] at hs
      cases hs
      exact .refl s
    | loop entry =>
      rw [switch, hl] at hs
      cases hs
      exact .refl s
    | ifThen skip onEntry =>
      have hskip : s.code.HasSlot skip := by
        refine h.slots ⟨.ifThen skip onEntry, exits, branches⟩ ?_ skip ?_
        · rw [hl]
          exact List.mem_cons_self
        · exact List.mem_append_right _ (List.mem_singleton.mpr rfl)
      -- the label without its skip is that of a block
      have hpends : ∀ σ, Pends s.labels σ ↔
          Pends (⟨.block, exits, branches⟩ :: labels) σ ∨ σ ∈ [skip] := by
        intro σ
        rw [hl, pends_cons, pends_cons]
        show σ ∈ exits ++ [skip] ∨ _ ↔ (σ ∈ exits ∨ _) ∨ _
        rw [List.mem_append]
        tauto
      cases live with
      | false =>
        rw [switch_eq_ok false hl rfl hskip] at hs
        rw [← Except.ok.inj hs]
        exact .of_resolve [] [skip] rfl fun σ _ => hpends σ
      | true =>
        rw [switch_eq_ok true hl rfl (hskip.emit _)] at hs
        rw [← Except.ok.inj hs]
        refine .of_resolve [.jump 0] [skip] rfl fun σ hσ => ?_
        rw [hpends σ]
        refine or_congr_left (pends_modify_iff (d := 0) ?_).symm
        exact ne_nextSlot hσ 0

theorem Sound.advances_leave (h : s.Sound) (scope : Scope) (live : Bool) (results : ℕ)
    (hs : s.leave scope live results = .ok s') : s.Advances s' := by
  cases hl : s.labels with
  | nil =>
    rw [leave_function scope live results hl] at hs
    rw [← Except.ok.inj hs]
    cases live with
    | false => exact .refl s
    | true => exact s.advances_emitAll [_]
  | cons l labels =>
    have hslots := h.slots l (by rw [hl]; exact List.mem_cons_self)
    rw [leave_eq_ok scope live results hl hslots] at hs
    rw [← Except.ok.inj hs]
    refine .of_resolve [] l.slots rfl fun σ _ => ?_
    rw [hl, pends_cons, or_comm]

/-- **Each step advances.** -/
theorem Sound.advances_step (h : s.Sound) {scope : Scope} {frames : Typing.State}
    {i : FlatWasm.Instr} (hs : s.step scope frames i = .ok s') : s.Advances s' := by
  unfold step at hs
  split at hs
  · cases hs
    exact .refl s
  · split at hs
    · cases i with
      | elseMark => exact h.advances_switch false hs
      | endMark => exact h.advances_leave scope false _ hs
      | _ =>
        cases hs
        exact .refl s
    · cases hf : i.flat? with
      | some j =>
        rw [emitInstr_plain s scope frames hf] at hs
        cases hs
        exact .of_emitAll _ rfl fun σ _ => by
          show _ ↔ Pends (s.emitAll _).labels σ
          rw [labels_emitAll]
      | none =>
        cases i with
        | nop =>
          cases hs
          exact .refl s
        | unreachable =>
          cases hs
          exact s.advances_emitAll [.unreachable]
        | block type =>
          cases hs
          exact s.advances_open [] .block s.selected nofun
        | loop type =>
          cases hs
          exact s.advances_open [] (.loop _) .unknown nofun
        | ifThen type =>
          cases hs
          refine s.advances_open [.jumpUnless 0] (.ifThen _ _) s.selected ?_
          intro skip onEntry hk
          cases hk
          rfl
        | elseMark => exact h.advances_switch true hs
        | endMark => exact h.advances_leave scope true _ hs
        | br d =>
          cases hs
          exact s.advances_branch scope _ _ _ _
        | brIf d =>
          cases hs
          exact s.advances_branch scope _ _ _ _
        | brTable ds d =>
          cases hs
          exact s.advances_table scope _ _ _ _
        | ret =>
          cases hs
          rw [emitReturn_eq]
          exact s.advances_emitAll _
        | _ => cases hf

end State

end Lowering

end FlatWasm
