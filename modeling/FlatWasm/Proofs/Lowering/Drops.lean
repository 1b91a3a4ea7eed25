import Mathlib
import FlatWasm.Proofs.Failures
import FlatWasm.Proofs.Flow.Lowered
import FlatWasm.Proofs.Lowering.Pending

/-!
# Returns in code

A return drops operands and the locals below them, and so does an entry of a branch table that returns.  This module says
which returns each operation of the pass adds to the code, as lists of what they drop, in the order of the code.

A return is an instruction of its own and stays as it was emitted.  The entry of a table is told from a branch by its target
alone: `returnTarget` stands for a return.  Since targets are filled in later, an entry could become a return, or cease to be
one, after it was emitted.  It does not as long as offsets are below `returnTarget`, for then neither a label nor a slot that
waits has this target (`State.Apart`).

## Why there are two lists

What is said of returns holds of code of any length, and what is said of entries only of code whose offsets can be told from
`returnTarget`.  `State.Adds` has a list for each, so that the condition of the second is not one of the first.
-/

namespace FlatWasm

open Lowering

/-! ## What returns drop -/

namespace Flat

/-- What a return drops. -/
def Instr.returnDrops : Instr → List UInt32
  | .ret _ dropped => [dropped]
  | _ => []

/-- What an entry of a table drops if it returns. -/
def Entry.returnDrops (e : Entry) : List UInt32 :=
  if e.target = returnTarget then [e.drop] else []

/-- What the entries of a table drop that return. -/
def Instr.entryDrops : Instr → List UInt32
  | .brTable _ entries fallback => (entries ++ [fallback]).flatMap Entry.returnDrops
  | _ => []

theorem flatMap_mapIdx {α β : Type} {as : List α} {g : ℕ → α → α} {d : α → List β}
    (h : ∀ k a, as[k]? = some a → d (g k a) = d a) : (as.mapIdx g).flatMap d = as.flatMap d := by
  have hmap : (as.mapIdx g).map d = as.map d := by
    refine List.ext_getElem (by simp) fun k hk hk' => ?_
    rw [List.getElem_map, List.getElem_mapIdx, List.getElem_map]
    exact h k _ (List.getElem?_eq_getElem _)
  rw [List.flatMap_def, hmap, List.flatMap_def]

theorem Instr.targets_table (keep : UInt32) (entry : ℕ → Entry) (depths : List ℕ) (fallback : ℕ) :
    (brTable keep (depths.map entry) (entry fallback)).targets =
      (depths ++ [fallback]).map fun d => (entry d).target := by
  rw [targets, List.map_append, List.map_map, List.map_append]
  rfl

theorem Instr.entryDrops_table (keep : UInt32) (entry : ℕ → Entry) (depths : List ℕ)
    (fallback : ℕ) : (brTable keep (depths.map entry) (entry fallback)).entryDrops =
      (depths ++ [fallback]).flatMap fun d => (entry d).returnDrops := by
  rw [entryDrops, List.flatMap_append, List.flatMap_map, List.flatMap_append]
  rfl

theorem Instr.returnDrops_retarget (f : ℕ → Option UInt32) (i : Instr) :
    (i.retarget f).returnDrops = i.returnDrops := by
  cases i <;> rfl

/-- A target that is filled in makes no return, and takes none away, if it is not that of a return before or after. -/
theorem Instr.entryDrops_retarget {f : ℕ → Option UInt32} {i : Instr}
    (h : ∀ k t, f k = some t → t ≠ returnTarget ∧ i.targets[k]? ≠ some returnTarget) :
    (i.retarget f).entryDrops = i.entryDrops := by
  cases i with
  | brTable keep entries fallback =>
    have hentries : (entries.mapIdx fun k e => ({ e with target := (f k).getD e.target } : Entry)) ++
        [{ fallback with target := (f entries.length).getD fallback.target }] =
          (entries ++ [fallback]).mapIdx fun k e => { e with target := (f k).getD e.target } :=
      List.mapIdx_concat.symm
    rw [retarget, entryDrops, entryDrops, hentries]
    refine flatMap_mapIdx fun k e he => ?_
    cases hf : f k with
    | none => rfl
    | some t =>
      obtain ⟨ht, hold⟩ := h k t hf
      rw [targets, List.getElem?_map, he, Option.map_some, ne_eq, Option.some.injEq] at hold
      rw [Entry.returnDrops, Entry.returnDrops, Option.getD_some, if_neg ht, if_neg hold]
  | _ => rfl

namespace Code

variable {c : Code}

theorem returnDrops_retarget (f : Slot → Option UInt32) (c : Code) :
    (c.retarget f).list.flatMap Instr.returnDrops = c.list.flatMap Instr.returnDrops := by
  rw [list_retarget]
  exact flatMap_mapIdx fun p i _ => i.returnDrops_retarget _

theorem entryDrops_retarget {f : Slot → Option UInt32}
    (h : ∀ σ t, f σ = some t → t ≠ returnTarget ∧ c.target? σ ≠ some returnTarget) :
    (c.retarget f).list.flatMap Instr.entryDrops = c.list.flatMap Instr.entryDrops := by
  rw [list_retarget]
  refine flatMap_mapIdx fun p i hi => Instr.entryDrops_retarget fun k t hk => ?_
  obtain ⟨ht, hold⟩ := h ⟨p, k⟩ t hk
  rw [target?, hi] at hold
  exact ⟨ht, hold⟩

/-- The slots of the next instruction have its targets. -/
theorem target?_emit_nextSlot (c : Code) (i : Instr) (k : ℕ) :
    (c.emit i).target? (c.nextSlot k) = i.targets[k]? := by
  have hlast : (c.list ++ [i])[c.instrs.size]? = some i := List.getElem?_concat_length
  rw [target?, list_emit]
  exact congrArg (Option.bind · fun i => i.targets[k]?) hlast

theorem offset_ne_returnTarget (h : c.size < returnTarget.toNat) : c.offset ≠ returnTarget := by
  intro heq
  have hsize : c.offset.toNat = c.size := toNat_word (h.trans returnTarget.toNat_lt)
  rw [heq] at hsize
  omega

end Code

end Flat

theorem Instr.drops_of_flat {i : Instr} {j : Flat.Instr} (h : i.flat? = some j) :
    j.returnDrops = [] ∧ j.entryDrops = [] := by
  cases i with
  | call callee type =>
    obtain ⟨origin, position⟩ := callee
    cases origin <;> cases h <;> exact ⟨rfl, rfl⟩
  | access a offset memory => cases a <;> cases h <;> exact ⟨rfl, rfl⟩
  | _ => cases h <;> exact ⟨rfl, rfl⟩

/-! ## Labels and slots that are told from returns -/

namespace Lowering.State

variable {s s' : State}

theorem list_emitAll (s : State) (is : List Flat.Instr) :
    (s.emitAll is).code.list = s.code.list ++ is := by
  induction is generalizing s with
  | nil => exact (List.append_nil _).symm
  | cons i is ih =>
    rw [emitAll_cons, ih]
    show (s.code.emit i).list ++ is = _
    rw [Flat.Code.list_emit, List.append_assoc]
    rfl

/-- Neither a label nor a slot that waits has the target that stands for a return. -/
structure Apart (s : State) : Prop where
  labels : ∀ l ∈ s.labels, l.target ≠ Flat.returnTarget
  slots : ∀ σ, Pends s.labels σ → s.code.target? σ ≠ some Flat.returnTarget

/-- What is added to the returns of the code on the way from `s` to `s'`. -/
structure Adds (s : State) (returned entered : List UInt32) (s' : State) : Prop where
  returns : s'.code.list.flatMap Flat.Instr.returnDrops =
    s.code.list.flatMap Flat.Instr.returnDrops ++ returned
  entries : s.Apart → s'.code.size < Flat.returnTarget.toNat →
    s'.Apart ∧ s'.code.list.flatMap Flat.Instr.entryDrops =
      s.code.list.flatMap Flat.Instr.entryDrops ++ entered

theorem adds_refl (s : State) : s.Adds [] [] s :=
  ⟨(List.append_nil _).symm, fun ha _ => ⟨ha, (List.append_nil _).symm⟩⟩

/-- Code is emitted, and labels are pushed or stay as they are. -/
theorem adds_emitAll (is : List Flat.Instr) (hc : s'.code = (s.emitAll is).code)
    (hapart : s.Apart → s'.code.size < Flat.returnTarget.toNat → s'.Apart) :
    s.Adds (is.flatMap Flat.Instr.returnDrops) (is.flatMap Flat.Instr.entryDrops) s' := by
  have hlist : s'.code.list = s.code.list ++ is := by rw [hc, list_emitAll]
  refine ⟨?_, fun ha hsize => ⟨hapart ha hsize, ?_⟩⟩ <;> rw [hlist, List.flatMap_append]

theorem Apart.emitAll (h : s.Apart) (hs : s.Sound) (is : List Flat.Instr) : (s.emitAll is).Apart := by
  refine ⟨?_, fun σ hσ => ?_⟩
  · rw [labels_emitAll]
    exact h.labels
  · rw [labels_emitAll] at hσ
    obtain ⟨l, hl, hmem⟩ := hσ
    rw [target?_emitAll (hs.slots l hl σ hmem)]
    exact h.slots σ ⟨l, hl, hmem⟩

theorem Apart.pushLabel (h : s.Apart) {kind : LabelKind}
    (htarget : Label.target { kind } ≠ Flat.returnTarget)
    (hslots : ∀ σ ∈ Label.slots { kind }, s.code.target? σ ≠ some Flat.returnTarget) :
    (s.pushLabel kind).Apart := by
  refine ⟨List.forall_mem_cons.mpr ⟨htarget, h.labels⟩, fun σ hσ => ?_⟩
  rcases pends_cons.mp hσ with hσ | hσ
  · exact hslots σ hσ
  · exact h.slots σ hσ

/-- A branch is noted at labels, and its targets are theirs. -/
theorem Apart.mark_emit (h : s.Apart) (hs : s.Sound) {es : List (ℕ × Flat.Slot)} {i : Flat.Instr}
    (hes : ∀ e ∈ es, e.1 < s.labels.length →
      ∃ k, e.2 = s.code.nextSlot k ∧ i.targets[k]? ≠ some Flat.returnTarget) :
    ((s.mark es).emit i).Apart := by
  rw [mark_eq]
  refine ⟨fun l hl => ?_, ?_⟩
  · obtain ⟨k, hk⟩ := List.mem_iff_getElem?.mp hl
    obtain ⟨l', hl', hlater⟩ :=
      exists_getElem?_of_forall₂ (forall₂_later_markLabels s.selected es s.labels) hk
    rw [Label.target, hlater.1]
    exact h.labels l' (List.mem_of_getElem? hl')
  · rintro σ ⟨l, hl, hσ⟩
    show (s.code.emit i).target? σ ≠ _
    rcases mem_slots_markLabels hl hσ with ⟨d, hlt, hd⟩ | ⟨l', hl', hσ'⟩
    · obtain ⟨k, rfl, hk⟩ := hes _ hd hlt
      rwa [Flat.Code.target?_emit_nextSlot]
    · rw [Flat.Code.target?_emit (hs.slots l' hl' σ hσ')]
      exact h.slots σ ⟨l', hl', hσ'⟩

/-- Slots are given the offset of the end of the code, and some wait on. -/
theorem Apart.resolve (h : s.Apart) {slots : List Flat.Slot}
    (hslots : ∀ σ ∈ slots, s.code.target? σ ≠ some Flat.returnTarget)
    (hsize : s.code.size < Flat.returnTarget.toNat)
    (hc : s'.code = s.code.retarget fun σ => if σ ∈ slots then some s.code.offset else none)
    (hlabels : ∀ l ∈ s'.labels, l ∈ s.labels) :
    s'.Apart ∧ s'.code.list.flatMap Flat.Instr.entryDrops =
      s.code.list.flatMap Flat.Instr.entryDrops := by
  have hoffset := Flat.Code.offset_ne_returnTarget hsize
  refine ⟨⟨fun l hl => h.labels l (hlabels l hl), ?_⟩, ?_⟩
  · rintro σ ⟨l, hl, hσ⟩ heq
    rw [hc, Flat.Code.target?_retarget] at heq
    obtain ⟨t, ht, heq⟩ := Option.map_eq_some_iff.mp heq
    split at heq
    · exact hoffset heq
    · rw [show t = Flat.returnTarget from heq] at ht
      exact h.slots σ ⟨l, hlabels l hl, hσ⟩ ht
  · rw [hc]
    refine Flat.Code.entryDrops_retarget fun σ t hσ => ?_
    split at hσ
    · next hmem => exact ⟨Option.some.inj hσ ▸ hoffset, hslots σ hmem⟩
    · cases hσ

/-! ## What each operation adds -/

theorem Sound.adds_mark_emit (hs : s.Sound) (es : List (ℕ × Flat.Slot)) (i : Flat.Instr)
    (hes : s.Apart → ∀ e ∈ es, e.1 < s.labels.length →
      ∃ k, e.2 = s.code.nextSlot k ∧ i.targets[k]? ≠ some Flat.returnTarget) :
    s.Adds i.returnDrops i.entryDrops ((s.mark es).emit i) := by
  have hadds : s.Adds _ _ ((s.mark es).emit i) :=
    adds_emitAll [i] (by rw [mark_eq]; rfl) fun ha _ => ha.mark_emit hs (hes ha)
  rwa [List.flatMap_singleton, List.flatMap_singleton] at hadds

/-- A branch out of the function is a return. -/
theorem Sound.adds_branch (hs : s.Sound) (scope : Scope) (kind : BranchKind) (depth : ℕ)
    (keep drop : UInt32) :
    s.Adds (if s.labels.length ≤ depth then [drop + scope.localCount] else []) []
      (s.emitBranch scope kind depth keep drop) := by
  rw [emitBranch]
  cases hl : s.labels[depth]? with
  | none =>
    have hadds : s.Adds _ _ (s.emitAll (returnCode scope kind s.code.size keep drop)) :=
      adds_emitAll _ rfl fun ha _ => ha.emitAll hs _
    rw [if_pos (List.getElem?_eq_none_iff.mp hl)]
    dsimp only
    rw [emitReturn_eq]
    cases kind <;> exact hadds
  | some l =>
    have htarget : (kind.instr keep drop l.target).targets = [l.target] := by
      cases kind <;> rw [BranchKind.instr] <;> split <;> rfl
    have hnone : (kind.instr keep drop l.target).returnDrops = [] ∧
        (kind.instr keep drop l.target).entryDrops = [] := by
      cases kind <;> rw [BranchKind.instr] <;> split <;> exact ⟨rfl, rfl⟩
    have hadds := hs.adds_mark_emit [(depth, s.code.nextSlot)]
      (kind.instr keep drop l.target) fun ha => List.forall_mem_singleton.mpr fun _ =>
        ⟨0, rfl, by
          rw [htarget]
          exact fun heq => ha.labels l (List.mem_of_getElem? hl) (Option.some.inj heq)⟩
    rw [hnone.1, hnone.2] at hadds
    rw [if_neg (Nat.not_le.mpr (List.getElem?_eq_some_iff.mp hl).1)]
    exact hadds

/-- An entry of a table returns if it leads out of the function. -/
theorem returnDrops_tableEntry (ha : s.Apart) (scope : Scope) (depth : ℕ) (drop : UInt32) :
    (s.tableEntry scope depth drop).returnDrops =
      if s.labels.length ≤ depth then [drop + scope.localCount] else [] := by
  rw [tableEntry]
  split
  · next hnone => rw [if_pos (List.getElem?_eq_none_iff.mp hnone), Flat.Entry.returnDrops, if_pos rfl]
  · next l hl =>
    rw [if_neg (Nat.not_le.mpr (List.getElem?_eq_some_iff.mp hl).1), Flat.Entry.returnDrops,
      if_neg (ha.labels l (List.mem_of_getElem? hl))]

theorem Sound.adds_table (hs : s.Sound) (scope : Scope) (keep : UInt32) (dropTo : ℕ → UInt32)
    (depths : List ℕ) (fallback : ℕ) :
    s.Adds [] ((depths ++ [fallback]).flatMap fun d =>
        if s.labels.length ≤ d then [dropTo d + scope.localCount] else [])
      (s.emitTable scope keep dropTo depths fallback) := by
  rw [emitTable_eq]
  have hadds := hs.adds_mark_emit (s.tableMarks (depths ++ [fallback]))
    (.brTable keep (depths.map fun d => s.tableEntry scope d (dropTo d))
      (s.tableEntry scope fallback (dropTo fallback))) fun ha e he hlt => by
    obtain ⟨⟨d, k⟩, hk, rfl⟩ := List.mem_map.mp he
    refine ⟨k, rfl, ?_⟩
    -- the entry for a label has the target of the label
    have hentry : (s.tableEntry scope d (dropTo d)).target = s.labels[d].target := by
      rw [tableEntry, List.getElem?_eq_getElem hlt]
    rw [Flat.Instr.targets_table, List.getElem?_map, List.mk_mem_zipIdx_iff_getElem?.mp hk,
      Option.map_some, hentry, ne_eq, Option.some.injEq]
    exact ha.labels _ (List.getElem_mem hlt)
  refine ⟨hadds.returns, fun ha hsize => ?_⟩
  obtain ⟨ha', hentries⟩ := hadds.entries ha hsize
  refine ⟨ha', hentries.trans (congrArg _ ?_)⟩
  rw [Flat.Instr.entryDrops_table]
  exact List.flatMap_congr fun d _ => returnDrops_tableEntry ha scope d (dropTo d)

theorem Sound.adds_leave (hs : s.Sound) {scope : Scope} {live : Bool} {results : ℕ}
    (h : s.leave scope live results = .ok s') :
    s.Adds (if s.labels = [] ∧ live = true then [0 + scope.localCount] else []) [] s' := by
  cases hl : s.labels with
  | nil =>
    rw [leave_function scope live results hl] at h
    rw [← Except.ok.inj h]
    cases live with
    | false => exact adds_refl s
    | true => exact adds_emitAll [.ret _ _] rfl fun ha _ => ha.emitAll hs [_]
  | cons l labels =>
    have hmem : l ∈ s.labels := by
      rw [hl]
      exact List.mem_cons_self
    rw [leave_eq_ok scope live results hl (hs.slots l hmem)] at h
    rw [← Except.ok.inj h, if_neg (by rintro ⟨⟨⟩, -⟩)]
    refine ⟨?_, fun ha hsize => ?_⟩
    · rw [List.append_nil]
      exact Flat.Code.returnDrops_retarget _ _
    · rw [List.append_nil]
      refine ha.resolve (fun σ hσ => ha.slots σ ⟨l, hmem, hσ⟩) hsize rfl fun l' hl' => ?_
      rw [hl]
      exact List.mem_cons_of_mem l hl'

/-- A label that is opened is a place in the code, and so no return. -/
theorem Sound.adds_opens (hs : s.Sound) {scope : Scope} {frames : Typing.State} {i : Instr}
    {kind : Typing.FrameKind} {type : FuncType} (hi : i.opens? = some (kind, type))
    (h : s.emitInstr scope frames i = .ok s') : s.Adds [] [] s' := by
  cases i with
  | block _ =>
    cases h
    exact adds_emitAll [] rfl fun ha _ => ha.pushLabel (by decide) (List.forall_mem_nil _)
  | loop _ =>
    cases h
    refine adds_emitAll [] rfl fun ha hsize => ?_
    exact Apart.pushLabel (s := s.forget) ⟨ha.labels, ha.slots⟩
      (Flat.Code.offset_ne_returnTarget hsize) (List.forall_mem_nil _)
  | ifThen _ =>
    cases h
    refine adds_emitAll [.jumpUnless 0] rfl fun ha _ => ?_
    refine (ha.emitAll hs [.jumpUnless 0]).pushLabel (show (0 : UInt32) ≠ _ by decide)
      (List.forall_mem_singleton.mpr ?_)
    show (s.code.emit _).target? s.code.nextSlot ≠ _
    rw [Flat.Code.target?_emit_nextSlot]
    decide
  | _ => cases hi

/-- What a plain instruction becomes is no return, and neither is a marker. -/
theorem Sound.adds_plain (hs : s.Sound) {scope : Scope} {frames : Typing.State} {i : Instr}
    {j : Flat.Instr} (hj : i.flat? = some j) (h : s.emitInstr scope frames i = .ok s') :
    s.Adds [] [] s' := by
  rw [emitInstr_plain s scope frames hj] at h
  have hadds : s.Adds ((i.markers s.selected ++ [j]).flatMap Flat.Instr.returnDrops)
      ((i.markers s.selected ++ [j]).flatMap Flat.Instr.entryDrops) s' := by
    rw [← Except.ok.inj h]
    exact adds_emitAll _ rfl fun ha _ => ⟨(ha.emitAll hs _).labels, (ha.emitAll hs _).slots⟩
  have hnone : ∀ k ∈ i.markers s.selected ++ [j], k.returnDrops = [] ∧ k.entryDrops = [] := by
    refine List.forall_mem_append.mpr ⟨?_, List.forall_mem_singleton.mpr (Instr.drops_of_flat hj)⟩
    rw [Instr.markers]
    split
    · split
      · exact List.forall_mem_nil _
      · exact List.forall_mem_singleton.mpr ⟨rfl, rfl⟩
    · exact List.forall_mem_nil _
  rwa [List.flatMap_eq_nil_iff.mpr fun k hk => (hnone k hk).1,
    List.flatMap_eq_nil_iff.mpr fun k hk => (hnone k hk).2] at hadds

/-- The jump that skips the second branch of an `if` is no return, and its target is not that of one. -/
theorem Sound.adds_skipElse (hs : s.Sound) (live : Bool) : s.Adds [] [] (s.skipElse live) := by
  cases live with
  | false => exact adds_refl s
  | true =>
    exact hs.adds_mark_emit [(0, s.code.nextSlot)] (.jump 0) fun _ =>
      List.forall_mem_singleton.mpr fun _ => ⟨0, rfl, by decide⟩

/-- The slots that there are stay as they are when the jump is emitted. -/
theorem target?_skipElse {σ : Flat.Slot} (h : s.code.HasSlot σ) (live : Bool) :
    (s.skipElse live).code.HasSlot σ ∧ (s.skipElse live).code.target? σ = s.code.target? σ := by
  cases live with
  | false => exact ⟨h, rfl⟩
  | true => exact ⟨h.emit _, Flat.Code.target?_emit h _⟩

theorem Sound.adds_switch (hs : s.Sound) {live : Bool} (h : s.switch live = .ok s') :
    s.Adds [] [] s' := by
  cases hl : s.labels with
  | nil =>
    rw [switch, hl] at h
    cases h
    exact adds_refl s
  | cons l labels =>
    obtain ⟨kind, exits, branches⟩ := l
    cases kind with
    | block =>
      rw [switch, hl] at h
      cases h
      exact adds_refl s
    | loop entry =>
      rw [switch, hl] at h
      cases h
      exact adds_refl s
    | ifThen skip onEntry =>
      have hskip : Pends s.labels skip := by
        rw [hl, pends_cons]
        exact .inl (List.mem_append_right _ (List.mem_singleton.mpr rfl))
      -- the label without its skip is that of a block
      have hsub : ∀ σ, Pends (⟨.block, exits, branches⟩ :: labels) σ → Pends s.labels σ := by
        intro σ hσ
        rw [hl, pends_cons]
        exact (pends_cons.mp hσ).imp_left (List.mem_append_left _)
      have hslot : ∀ σ, Pends s.labels σ → s.code.HasSlot σ := by
        rintro σ ⟨l, hl, hσ⟩
        exact hs.slots l hl σ hσ
      have hsound : State.Sound { s with labels := ⟨.block, exits, branches⟩ :: labels } :=
        ⟨hs.sized, fun l hl σ hσ => hslot σ (hsub σ ⟨l, hl, hσ⟩)⟩
      have hapart : s.Apart → State.Apart { s with labels := ⟨.block, exits, branches⟩ :: labels } := by
        intro ha
        have hlabels := ha.labels
        rw [hl, List.forall_mem_cons] at hlabels
        exact ⟨List.forall_mem_cons.mpr ⟨hlabels.1, hlabels.2⟩, fun σ hσ => ha.slots σ (hsub σ hσ)⟩
      have hadds := hsound.adds_skipElse live
      obtain ⟨hhas, htarget⟩ := target?_skipElse
        (s := { s with labels := ⟨.block, exits, branches⟩ :: labels }) (hslot skip hskip) live
      rw [switch_eq_ok live hl rfl hhas] at h
      rw [← Except.ok.inj h]
      refine ⟨(Flat.Code.returnDrops_retarget _ _).trans hadds.returns, fun ha hsize => ?_⟩
      obtain ⟨ha', hentries⟩ := hadds.entries (hapart ha) hsize
      rw [← hentries]
      refine ha'.resolve (List.forall_mem_singleton.mpr ?_) hsize rfl fun _ hl => hl
      rw [htarget]
      exact ha.slots skip hskip

end Lowering.State

end FlatWasm
