import Mathlib
import FlatWasm.Lowering.Step
import FlatWasm.Proofs.Lowering.Retarget

/-!
# What one instruction emits

`State.emitInstr` has a case for every instruction.  What later proofs need of it are five ways to change the state:

* a *plain* instruction emits one instruction, after a marker if its store is not selected (`emitInstr_plain`);
* a branch or a branch table is noted at the labels it goes to and emitted (`State.mark`);
* `block`, `loop` and `if` push a label;
* `else` and `end` resolve slots.

Which instructions are plain, and what they become, is the table `Instr.flat?`.

The invariant `State.Sound` says that the size of the code is the number of its bytes and that every slot that waits for
its target is there.  Every step keeps it, so no step meets a defect.
-/

namespace FlatWasm

open Flat (Slot StoreKind)

namespace Lowering

/-! ## Selections -/

namespace Selection

/-- What `a` knows, `b` knows. -/
instance : LE Selection :=
  ⟨fun a b => ∀ kind l, a.get kind = some l → b.get kind = some l⟩

theorem le_def {a b : Selection} :
    a ≤ b ↔ ∀ kind l, a.get kind = some l → b.get kind = some l :=
  Iff.rfl

theorem le_refl (a : Selection) : a ≤ a :=
  fun _ _ h => h

theorem le_trans {a b c : Selection} (hab : a ≤ b) (hbc : b ≤ c) : a ≤ c :=
  fun kind l h => hbc kind l (hab kind l h)

theorem unknown_le (a : Selection) : unknown ≤ a := by
  intro kind l h
  cases kind <;> cases h

theorem meet_le_left (a b : Selection) : a.meet b ≤ a :=
  fun _ _ h => (get_meet_eq_some.mp h).1

theorem meet_le_right (a b : Selection) : a.meet b ≤ b :=
  fun _ _ h => (get_meet_eq_some.mp h).2

theorem foldl_meet_le (ss : List Selection) (s : Selection) :
    ss.foldl meet s ≤ s ∧ ∀ t ∈ ss, ss.foldl meet s ≤ t := by
  induction ss generalizing s with
  | nil => exact ⟨le_refl s, by simp⟩
  | cons u us ih =>
    obtain ⟨h, hs⟩ := ih (s.meet u)
    refine ⟨le_trans h (meet_le_left s u), ?_⟩
    rw [List.forall_mem_cons]
    exact ⟨le_trans h (meet_le_right s u), hs⟩

/-- What all paths agree on, each of them has. -/
theorem meetAll_le {ss : List Selection} {s : Selection} (h : s ∈ ss) : meetAll ss ≤ s := by
  cases ss with
  | nil => cases h
  | cons t ts =>
    rcases List.mem_cons.mp h with rfl | h
    · exact (foldl_meet_le ts s).1
    · exact (foldl_meet_le ts t).2 s h

theorem set_eq_self {s : Selection} {kind : StoreKind} {store : Option Location}
    (h : s.get kind = store) : s.set kind store = s := by
  subst h
  cases kind <;> rfl

end Selection

end Lowering

/-! ## Plain instructions -/

open Lowering

namespace Instr

/-- What a plain instruction becomes. -/
def flat? : Instr → Option Flat.Instr
  | .call callee _ => some (match callee.origin with
    | .imported => .callImport callee.position
    | .defined => .callLocal callee.position)
  | .callIndirect typeIndex _ _ => some (.callIndirect typeIndex)
  | .drop => some .drop
  | .select | .typedSelect _ => some .select
  | .localGet i _ => some (.localGet i)
  | .localSet i _ => some (.localSet i)
  | .localTee i _ => some (.localTee i)
  | .globalGet _ _ width => some (.globalGet (widthOf width))
  | .globalSet _ _ width => some (.globalSet (widthOf width))
  | .access a offset _ => some (accessInstr a offset)
  | .memorySize _ => some .memorySize
  | .memoryGrow _ => some .memoryGrow
  | .memoryCopy _ => some .memoryCopy
  | .memoryFill _ => some .memoryFill
  | .const32 _ bits => some (.const32 bits)
  | .const64 _ bits => some (.const64 bits)
  | .numeric op => some (.numeric op)
  | .truncate op => some (.truncate op)
  | .unreachable | .nop | .block _ | .loop _ | .ifThen _ | .elseMark | .endMark | .br _ | .brIf _
  | .brTable .. | .ret => none

/-- The store that an instruction works on. -/
def store? : Instr → Option (StoreKind × Location)
  | .callIndirect _ _ table => some (.table, table)
  | .globalGet global _ _ | .globalSet global _ _ => some (.global, global)
  | .access _ _ memory | .memorySize memory | .memoryGrow memory | .memoryCopy memory
  | .memoryFill memory => some (.memory, memory)
  | _ => none

/-- What is selected when the store of an instruction has been selected. -/
def selecting (i : Instr) (s : Selection) : Selection :=
  match i.store? with
  | some (kind, store) => s.set kind (some store)
  | none => s

/-- What is still known to be selected when an instruction has run. -/
def forgetting (i : Instr) (s : Selection) : Selection :=
  match i with
  | .call .. | .callIndirect .. => .unknown
  | .memoryGrow _ => s.set .memory none
  | _ => s

/-- The marker that an instruction needs where `s` is selected. -/
def markers (i : Instr) (s : Selection) : List Flat.Instr :=
  match i.store? with
  | some (kind, store) =>
    if s.get kind = some store then [] else [.use kind store.origin.code store.position]
  | none => []

theorem selecting_of_markers_eq_nil {i : Instr} {s : Selection} (h : i.markers s = []) :
    i.selecting s = s := by
  rw [markers] at h
  rw [selecting]
  cases hs : i.store? with
  | none => rfl
  | some p =>
    obtain ⟨kind, store⟩ := p
    rw [hs] at h
    dsimp only at h ⊢
    split at h
    · next hg => exact Selection.set_eq_self hg
    · cases h

end Instr

namespace Lowering.State

/-- Emits instructions. -/
def emitAll (s : State) (is : List Flat.Instr) : State :=
  is.foldl emit s

@[simp] theorem emitAll_nil (s : State) : s.emitAll [] = s := rfl

@[simp] theorem emitAll_cons (s : State) (i : Flat.Instr) (is : List Flat.Instr) :
    s.emitAll (i :: is) = (s.emit i).emitAll is := rfl

/-- **A plain instruction emits its marker and what it becomes.** -/
theorem emitInstr_plain (s : State) (scope : Scope) (frames : Typing.State) {i : Instr}
    {j : Flat.Instr} (h : i.flat? = some j) :
    s.emitInstr scope frames i = .ok { s.emitAll (i.markers s.selected ++ [j]) with
      selected := i.forgetting (i.selecting s.selected) } := by
  -- an instruction that works on a store
  have hon : ∀ (kind : StoreKind) (store : Location), i.store? = some (kind, store) →
      s.emitOn kind store j = { s.emitAll (i.markers s.selected ++ [j]) with
        selected := i.selecting s.selected } := by
    intro kind store hs
    rw [emitOn, use, Instr.markers, Instr.selecting, hs]
    dsimp only
    split
    · next hg =>
      rw [Selection.set_eq_self hg]
      rfl
    · rfl
  cases i with
  | callIndirect _ _ _ | globalGet _ _ _ | globalSet _ _ _ | access _ _ _ | memorySize _
  | memoryCopy _ | memoryFill _ =>
    cases h
    rw [emitInstr, hon _ _ rfl]
    rfl
  | memoryGrow _ =>
    cases h
    rw [emitInstr, hon _ _ rfl]
    rfl
  | unreachable | nop | block _ | loop _ | ifThen _ | elseMark | endMark | br _ | brIf _
  | brTable _ _ | ret => cases h
  | _ =>
    cases h
    rfl

/-! ## Branches -/

/-- Notes branches at the labels that they go to. -/
def mark (s : State) (es : List (ℕ × Slot)) : State :=
  es.foldl (fun s (depth, slot) => s.branchFrom depth slot) s

/-- The same for the labels alone. -/
def markLabels (selected : Selection) (es : List (ℕ × Slot)) (labels : List Label) : List Label :=
  es.foldl (fun labels (depth, slot) => labels.modify depth (·.branchFrom slot selected)) labels

theorem mark_eq (s : State) (es : List (ℕ × Slot)) :
    s.mark es = { s with labels := markLabels s.selected es s.labels } := by
  induction es generalizing s with
  | nil => rfl
  | cons e es ih =>
    obtain ⟨depth, slot⟩ := e
    rw [mark, List.foldl_cons, ← mark, ih]
    rfl

@[simp] theorem mark_code (s : State) (es : List (ℕ × Slot)) : (s.mark es).code = s.code := by
  rw [mark_eq]

@[simp] theorem mark_selected (s : State) (es : List (ℕ × Slot)) :
    (s.mark es).selected = s.selected := by
  rw [mark_eq]

@[simp] theorem length_markLabels (selected : Selection) (es : List (ℕ × Slot))
    (labels : List Label) : (markLabels selected es labels).length = labels.length := by
  induction es generalizing labels with
  | nil => rfl
  | cons e es ih =>
    rw [markLabels, List.foldl_cons, ← markLabels, ih, List.length_modify]

@[simp] theorem length_labels_mark (s : State) (es : List (ℕ × Slot)) :
    (s.mark es).labels.length = s.labels.length := by
  rw [mark_eq, length_markLabels]

/-- The entries of a branch table as branches: entry `i` goes to the `i`-th depth. -/
def tableMarks (s : State) (depths : List ℕ) : List (ℕ × Slot) :=
  depths.zipIdx.map fun (depth, i) => (depth, s.code.nextSlot i)

theorem emitTable_eq (s : State) (scope : Scope) (keep : UInt32) (dropTo : ℕ → UInt32)
    (depths : List ℕ) (fallback : ℕ) :
    s.emitTable scope keep dropTo depths fallback =
      (s.mark (s.tableMarks (depths ++ [fallback]))).emit (.brTable keep
        (depths.map fun d => s.tableEntry scope d (dropTo d))
        (s.tableEntry scope fallback (dropTo fallback))) := by
  have hfold : ∀ (es : List (ℕ × ℕ)) (t : State), t.code = s.code →
      es.foldl (fun s (depth, i) => s.branchFrom depth (s.code.nextSlot i)) t =
        t.mark (es.map fun (depth, i) => (depth, s.code.nextSlot i)) := by
    intro es
    induction es with
    | nil =>
      intro t _
      rfl
    | cons e es ih =>
      intro t ht
      rw [List.foldl_cons, ih _ (by exact ht), List.map_cons, mark, mark, List.foldl_cons, ht]
  rw [emitTable, hfold _ _ rfl]
  rfl

/-! ## Slots are there -/

/-- The size of the code is the number of its bytes, and every slot that waits for its target is there. -/
structure Sound (s : State) : Prop where
  sized : s.code.Sized
  slots : ∀ l ∈ s.labels, ∀ σ ∈ l.slots, s.code.HasSlot σ

variable {s : State}

theorem Sound.emit (h : s.Sound) (i : Flat.Instr) : (s.emit i).Sound :=
  ⟨h.sized.emit i, fun l hl σ hσ => (h.slots l hl σ hσ).emit i⟩

theorem Sound.emitAll (h : s.Sound) (is : List Flat.Instr) : (s.emitAll is).Sound := by
  induction is generalizing s with
  | nil => exact h
  | cons i is ih => exact ih (h.emit i)

theorem mem_slots_branchFrom {l : Label} {slot σ : Slot} {selected : Selection}
    (h : σ ∈ (l.branchFrom slot selected).slots) : σ = slot ∨ σ ∈ l.slots := by
  obtain ⟨kind, exits, branches⟩ := l
  cases kind with
  | loop entry => exact .inr h
  | block =>
    rcases List.mem_append.mp h with h | h
    · exact .inr h
    · exact .inl (List.mem_singleton.mp h)
  | ifThen skip onEntry =>
    rcases List.mem_append.mp h with h | h
    · rcases List.mem_append.mp h with h | h
      · exact .inr (List.mem_append_left _ h)
      · exact .inl (List.mem_singleton.mp h)
    · exact .inr (List.mem_append_right _ h)

/-- A slot of a label that branches have been noted at is one of theirs or was there before. -/
theorem mem_slots_markLabels {selected : Selection} {es : List (ℕ × Slot)} {labels : List Label}
    {l : Label} {σ : Slot} (hl : l ∈ markLabels selected es labels) (hσ : σ ∈ l.slots) :
    (∃ d < labels.length, (d, σ) ∈ es) ∨ ∃ l' ∈ labels, σ ∈ l'.slots := by
  induction es generalizing labels with
  | nil => exact .inr ⟨l, hl, hσ⟩
  | cons e es ih =>
    rcases ih hl with ⟨d, hlt, hd⟩ | ⟨l', hl', hσ'⟩
    · rw [List.length_modify] at hlt
      exact .inl ⟨d, hlt, List.mem_cons_of_mem _ hd⟩
    · obtain ⟨k, hk, rfl⟩ := List.mem_iff_getElem.mp hl'
      rw [List.getElem_modify] at hσ'
      rw [List.length_modify] at hk
      split at hσ'
      · next heq =>
        rcases mem_slots_branchFrom hσ' with rfl | hσ'
        · exact .inl ⟨e.1, heq ▸ hk, List.mem_cons_self⟩
        · exact .inr ⟨_, List.getElem_mem hk, hσ'⟩
      · exact .inr ⟨_, List.getElem_mem hk, hσ'⟩

theorem Sound.mark_emit (h : s.Sound) {es : List (ℕ × Slot)} {i : Flat.Instr}
    (hes : ∀ e ∈ es, ∃ k < i.targetCount, e.2 = s.code.nextSlot k) :
    ((s.mark es).emit i).Sound := by
  rw [mark_eq]
  refine ⟨h.sized.emit i, fun l hl σ hσ => ?_⟩
  rcases mem_slots_markLabels hl hσ with ⟨d, -, hd⟩ | ⟨l', hl', hσ'⟩
  · obtain ⟨k, hk, rfl⟩ := hes _ hd
    exact Flat.Code.hasSlot_emit_next hk
  · exact (h.slots l' hl' σ hσ').emit i

/-! ## Returns, and the marks of structure -/

/-- The code of a return that starts at offset `pc`. -/
def returnCode (scope : Scope) (kind : BranchKind) (pc : ℕ) (keep drop : UInt32) :
    List Flat.Instr :=
  match kind with
  | .always => [.ret keep (drop + scope.localCount)]
  | .ifNonzero => [.jumpUnless (UInt32.ofNat (pc + 14)), .ret keep (drop + scope.localCount)]

theorem emitReturn_eq (s : State) (scope : Scope) (kind : BranchKind) (keep drop : UInt32) :
    s.emitReturn scope kind keep drop = s.emitAll (returnCode scope kind s.code.size keep drop) := by
  cases kind <;> rfl

/-- Where the first branch of an `if` can run to its end, a jump leads over the second. -/
def skipElse (s : State) (live : Bool) : State :=
  if live then (s.mark [(0, s.code.nextSlot)]).emit (.jump 0) else s

theorem switch_eq_ok {skip : Slot} {onEntry : Selection} {exits : List Slot}
    {branches : Option Selection} {labels : List Label} {t : State} (live : Bool)
    (hs : s.labels = ⟨.ifThen skip onEntry, exits, branches⟩ :: labels)
    (ht : t = skipElse { s with labels := ⟨.block, exits, branches⟩ :: labels } live)
    (hskip : t.code.HasSlot skip) :
    s.switch live = .ok { t with
      code := t.code.retarget fun σ => if σ ∈ [skip] then some t.code.offset else none
      selected := onEntry } := by
  have hswitch : s.switch live = (do
      let code ← t.code.resolveHere [skip]
      pure { t with code, selected := onEntry }) := by
    subst ht
    rw [switch, hs]
    cases live <;> rfl
  rw [hswitch, Flat.Code.resolveHere_eq_ok_iff.mpr ⟨by simpa using hskip, rfl⟩]
  rfl

theorem leave_eq_ok {l : Label} {labels : List Label} (scope : Scope) (live : Bool) (results : ℕ)
    (hs : s.labels = l :: labels) (hslots : ∀ σ ∈ l.slots, s.code.HasSlot σ) :
    s.leave scope live results = .ok
      { code := s.code.retarget fun σ => if σ ∈ l.slots then some s.code.offset else none
        selected := l.selectionAfter (if live then some s.selected else none)
        labels } := by
  have hres : s.code.resolveHere l.slots = .ok _ :=
    Flat.Code.resolveHere_eq_ok_iff.mpr ⟨hslots, rfl⟩
  rw [leave, hs]
  dsimp only
  rw [hres]
  rfl

theorem leave_function (scope : Scope) (live : Bool) (results : ℕ) (hs : s.labels = []) :
    s.leave scope live results =
      .ok (if live then s.emit (.ret (UInt32.ofNat results) (0 + scope.localCount)) else s) := by
  rw [leave, hs]
  cases live <;> rfl

theorem le_size_emitAll (s : State) (is : List Flat.Instr) :
    s.code.size ≤ (s.emitAll is).code.size := by
  induction is generalizing s with
  | nil => exact Nat.le_refl _
  | cons i is ih => exact Nat.le_trans (Nat.le_add_right _ _) (ih (s.emit i))

/-- `s'` comes after `s`: it is sound, and there is at least as much code. -/
def Grows (s s' : State) : Prop :=
  s'.Sound ∧ s.code.size ≤ s'.code.size

theorem Sound.grows_emitAll (h : s.Sound) (is : List Flat.Instr) : s.Grows (s.emitAll is) :=
  ⟨h.emitAll is, s.le_size_emitAll is⟩

theorem Sound.grows_branch (h : s.Sound) (scope : Scope) (kind : BranchKind) (depth : ℕ)
    (keep drop : UInt32) : s.Grows (s.emitBranch scope kind depth keep drop) := by
  rw [emitBranch]
  split
  · rw [emitReturn_eq]
    exact h.grows_emitAll _
  · next l _ =>
    have hcount : (kind.instr keep drop l.target).targetCount = 1 := by
      cases kind <;> rw [BranchKind.instr] <;> split <;> rfl
    have hslots : ∀ e ∈ [(depth, s.code.nextSlot)],
        ∃ k < (kind.instr keep drop l.target).targetCount, e.2 = s.code.nextSlot k := by
      intro e he
      rw [List.mem_singleton.mp he, hcount]
      exact ⟨0, Nat.one_pos, rfl⟩
    exact ⟨h.mark_emit hslots, Nat.le_add_right _ _⟩

theorem Sound.grows_table (h : s.Sound) (scope : Scope) (keep : UInt32) (dropTo : ℕ → UInt32)
    (depths : List ℕ) (fallback : ℕ) :
    s.Grows (s.emitTable scope keep dropTo depths fallback) := by
  rw [emitTable_eq]
  refine ⟨h.mark_emit fun e he => ?_, ?_⟩
  · obtain ⟨⟨d, k⟩, hk, rfl⟩ := List.mem_map.mp he
    have hlt := (List.mk_mem_zipIdx_iff_getElem?.mp hk)
    have hk' : k < (depths ++ [fallback]).length := (List.getElem?_eq_some_iff.mp hlt).1
    refine ⟨k, ?_, rfl⟩
    simpa [Flat.Instr.targetCount] using hk'
  · show s.code.size ≤ ((s.mark _).code.emit _).size
    rw [mark_code]
    exact Nat.le_add_right _ _

theorem Sound.grows_switch (h : s.Sound) (live : Bool) :
    ∃ s', s.switch live = .ok s' ∧ s.Grows s' := by
  have hself : s.Grows s := ⟨h, Nat.le_refl _⟩
  cases hl : s.labels with
  | nil => exact ⟨s, by rw [switch, hl]; rfl, hself⟩
  | cons l labels =>
    obtain ⟨kind, exits, branches⟩ := l
    cases kind with
    | block => exact ⟨s, by rw [switch, hl]; rfl, hself⟩
    | loop entry => exact ⟨s, by rw [switch, hl]; rfl, hself⟩
    | ifThen skip onEntry =>
      have hlab := h.slots
      rw [hl] at hlab
      -- the label without its skip
      have h₁ : State.Sound { s with labels := ⟨.block, exits, branches⟩ :: labels } := by
        refine ⟨h.sized, ?_⟩
        rw [List.forall_mem_cons]
        exact ⟨fun σ hσ => hlab _ List.mem_cons_self σ (List.mem_append_left _ hσ),
          fun l hl => hlab l (List.mem_cons_of_mem _ hl)⟩
      have hskip : s.code.HasSlot skip :=
        hlab _ List.mem_cons_self skip (List.mem_append_right _ (List.mem_singleton.mpr rfl))
      have h₂ : s.Grows (skipElse { s with labels := ⟨.block, exits, branches⟩ :: labels } live) ∧
          (skipElse { s with labels := ⟨.block, exits, branches⟩ :: labels } live).code.HasSlot
            skip := by
        cases live with
        | false => exact ⟨⟨h₁, Nat.le_refl _⟩, hskip⟩
        | true =>
          have hslots : ∀ e ∈ [(0, s.code.nextSlot)],
              ∃ k < (Flat.Instr.jump 0).targetCount, e.2 = s.code.nextSlot k := by
            intro e he
            rw [List.mem_singleton.mp he]
            exact ⟨0, Nat.one_pos, rfl⟩
          exact ⟨⟨h₁.mark_emit hslots, Nat.le_add_right _ _⟩, hskip.emit _⟩
      refine ⟨_, switch_eq_ok live hl rfl h₂.2, ⟨h₂.1.1.sized.retarget _, fun l hl σ hσ => ?_⟩,
        h₂.1.2⟩
      exact Flat.Code.hasSlot_retarget.mpr (h₂.1.1.slots l hl σ hσ)

theorem Sound.grows_leave (h : s.Sound) (scope : Scope) (live : Bool) (results : ℕ) :
    ∃ s', s.leave scope live results = .ok s' ∧ s.Grows s' := by
  cases hl : s.labels with
  | nil =>
    refine ⟨_, leave_function scope live results hl, ?_⟩
    cases live with
    | false => exact ⟨h, Nat.le_refl _⟩
    | true => exact h.grows_emitAll [_]
  | cons l labels =>
    have hlab := h.slots
    rw [hl] at hlab
    refine ⟨_, leave_eq_ok scope live results hl (hlab l List.mem_cons_self),
      ⟨h.sized.retarget _, fun l' hl' σ hσ => ?_⟩, Nat.le_refl _⟩
    exact Flat.Code.hasSlot_retarget.mpr (hlab l' (List.mem_cons_of_mem _ hl') σ hσ)

theorem Sound.pushLabel (h : s.Sound) {kind : LabelKind}
    (hskip : ∀ skip onEntry, kind = .ifThen skip onEntry → s.code.HasSlot skip) :
    (s.pushLabel kind).Sound := by
  refine ⟨h.sized, ?_⟩
  rw [State.pushLabel, List.forall_mem_cons]
  refine ⟨fun σ hσ => ?_, h.slots⟩
  cases kind with
  | block => cases hσ
  | loop entry => cases hσ
  | ifThen skip onEntry =>
    rw [List.mem_singleton.mp hσ]
    exact hskip skip onEntry rfl

/-- **No step meets a defect.**  After each the state is sound again, and code is only added. -/
theorem Sound.exists_step (h : s.Sound) (scope : Scope) (frames : Typing.State) (i : Instr) :
    ∃ s', s.step scope frames i = .ok s' ∧ s.Grows s' := by
  have hself : s.Grows s := ⟨h, Nat.le_refl _⟩
  unfold step
  split
  · exact ⟨s, rfl, hself⟩
  · split
    · cases i with
      | elseMark => exact h.grows_switch false
      | endMark => exact h.grows_leave scope false _
      | _ => exact ⟨s, rfl, hself⟩
    · cases hf : i.flat? with
      | some j =>
        exact ⟨_, emitInstr_plain s scope frames hf, ⟨(h.emitAll _).sized, (h.emitAll _).slots⟩,
          s.le_size_emitAll _⟩
      | none =>
        cases i with
        | nop => exact ⟨s, rfl, hself⟩
        | unreachable => exact ⟨_, rfl, h.grows_emitAll [_]⟩
        | block type =>
          exact ⟨_, rfl, h.pushLabel (by intro _ _ hk; cases hk), Nat.le_refl _⟩
        | loop type =>
          exact ⟨_, rfl, Sound.pushLabel (s := s.forget) ⟨h.sized, h.slots⟩
            (by intro _ _ hk; cases hk), Nat.le_refl _⟩
        | ifThen type =>
          refine ⟨_, rfl, (h.emit _).pushLabel ?_, Nat.le_add_right _ _⟩
          intro skip onEntry hk
          cases hk
          exact Flat.Code.hasSlot_emit_next Nat.one_pos
        | elseMark => exact h.grows_switch true
        | endMark => exact h.grows_leave scope true _
        | br d => exact ⟨_, rfl, h.grows_branch scope _ _ _ _⟩
        | brIf d => exact ⟨_, rfl, h.grows_branch scope _ _ _ _⟩
        | brTable ds d => exact ⟨_, rfl, h.grows_table scope _ _ _ _⟩
        | ret =>
          refine ⟨_, rfl, ?_⟩
          rw [emitReturn_eq]
          exact h.grows_emitAll _
        | _ => cases hf
end Lowering.State

end FlatWasm
