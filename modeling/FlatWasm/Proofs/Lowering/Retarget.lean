import Mathlib
import FlatWasm.Flat.Code

/-!
# Targets that are filled in later

A jump forward gets its target when the code has reached it.  `Code.resolve` does this for one slot and can fail.  Here
it is a total function on code: `Code.retarget` takes a partial assignment of targets to slots and changes what it
assigns.  Resolving slots is `retarget` with the assignment that is defined on them, and two of them in turn are one,
where the second assignment wins.

So the code that is there at some point of the pass and the code in the end differ by one `retarget`, whatever happens
between, and by what is emitted after that point.
-/

namespace FlatWasm.Flat

namespace Instr

/-- How many targets an instruction has. -/
def targetCount : Instr → ℕ
  | .jump _ | .jumpIf _ | .jumpUnless _ | .br .. | .brIf .. => 1
  | .brTable _ entries _ => entries.length + 1
  | _ => 0

/-- The instruction with the targets that `f` assigns. -/
def retarget (f : ℕ → Option UInt32) : Instr → Instr
  | .jump t => .jump ((f 0).getD t)
  | .jumpIf t => .jumpIf ((f 0).getD t)
  | .jumpUnless t => .jumpUnless ((f 0).getD t)
  | .br keep dropped t => .br keep dropped ((f 0).getD t)
  | .brIf keep dropped t => .brIf keep dropped ((f 0).getD t)
  | .brTable keep entries fallback =>
    .brTable keep (entries.mapIdx fun k e => { e with target := (f k).getD e.target })
      { fallback with target := (f entries.length).getD fallback.target }
  | i => i

variable {f g : ℕ → Option UInt32} {i j : Instr} {entry : ℕ} {target : UInt32}

@[simp] theorem retarget_none (i : Instr) : i.retarget (fun _ => none) = i := by
  cases i with
  | brTable keep entries fallback =>
    have hentries : (entries.mapIdx fun _ e => { e with target := (none : Option UInt32).getD e.target }) =
        entries := List.ext_getElem (by simp) (by simp)
    rw [retarget, hentries]
    rfl
  | _ => rfl

theorem retarget_retarget (f g : ℕ → Option UInt32) (i : Instr) :
    (i.retarget f).retarget g = i.retarget fun k => (g k).or (f k) := by
  have hor : ∀ (a b : Option UInt32) (t : UInt32), a.getD (b.getD t) = (a.or b).getD t := by
    intro a b t
    cases a <;> rfl
  cases i with
  | brTable keep entries fallback =>
    simp only [retarget, List.mapIdx_mapIdx, Function.comp_def, List.length_mapIdx, hor]
  | jump _ | jumpIf _ | jumpUnless _ | br _ _ _ | brIf _ _ _ => simp only [retarget, hor]
  | _ => rfl

theorem retarget_congr (h : ∀ k < i.targetCount, f k = g k) : i.retarget f = i.retarget g := by
  cases i with
  | brTable keep entries fallback =>
    have hentries : (entries.mapIdx fun k e => { e with target := (f k).getD e.target }) =
        entries.mapIdx fun k e => { e with target := (g k).getD e.target } := by
      refine List.ext_getElem (by simp) fun k hk _ => ?_
      rw [List.getElem_mapIdx, List.getElem_mapIdx, h k]
      rw [List.length_mapIdx] at hk
      exact Nat.lt_succ_of_lt hk
    rw [retarget, retarget, hentries, h entries.length (Nat.lt_succ_self _)]
  | jump _ | jumpIf _ | jumpUnless _ | br _ _ _ | brIf _ _ _ =>
    rw [retarget, retarget, h 0 Nat.one_pos]
  | _ => rfl

@[simp] theorem targetCount_retarget (f : ℕ → Option UInt32) (i : Instr) :
    (i.retarget f).targetCount = i.targetCount := by
  cases i <;> simp [retarget, targetCount]

theorem length_flatMap_encodeEntry (entries : List Entry) :
    (entries.flatMap encodeEntry).length = 8 * entries.length := by
  induction entries with
  | nil => rfl
  | cons e es ih =>
    have h8 : (encodeEntry e).length = 8 := rfl
    rw [List.flatMap_cons, List.length_append, ih, h8, List.length_cons]
    omega

/-- Targets take four bytes, whatever they are. -/
@[simp] theorem size_retarget (f : ℕ → Option UInt32) (i : Instr) :
    (i.retarget f).size = i.size := by
  cases i with
  | brTable keep entries fallback =>
    simp only [size, encode, encodeImmediates, retarget, List.length_cons, List.length_append,
      length_flatMap_encodeEntry, List.length_mapIdx]
    rfl
  | _ => rfl

/-- An instruction takes at least the byte of its opcode. -/
theorem size_pos (i : Instr) : 0 < i.size :=
  Nat.succ_pos _

theorem setTarget_eq_some (h : entry < i.targetCount) :
    i.setTarget entry target = some (i.retarget fun k => if k = entry then some target else none) := by
  cases i with
  | brTable keep entries fallback =>
    rw [setTarget, setEntryTarget]
    rcases Nat.lt_succ_iff_lt_or_eq.mp h with hlt | rfl
    · rw [if_pos hlt, retarget, if_neg (Nat.ne_of_gt hlt)]
      congr 2
      refine List.ext_getElem (by simp) fun k hk _ => ?_
      rw [List.getElem_modify, List.getElem_mapIdx]
      by_cases hke : k = entry
      · simp [hke]
      · simp [hke, Ne.symm hke]
    · rw [if_neg (Nat.lt_irrefl _), if_pos rfl, retarget, if_pos rfl]
      congr 2
      refine List.ext_getElem (by simp) fun k hk _ => ?_
      rw [List.getElem_mapIdx, if_neg (Nat.ne_of_lt hk)]
      rfl
  | jump _ | jumpIf _ | jumpUnless _ | br _ _ _ | brIf _ _ _ =>
    obtain rfl : entry = 0 := Nat.lt_one_iff.mp h
    rfl
  | _ => cases h

theorem setTarget_eq_none (h : i.targetCount ≤ entry) : i.setTarget entry target = none := by
  cases i with
  | brTable keep entries fallback =>
    have h' : entries.length + 1 ≤ entry := h
    rw [setTarget, setEntryTarget, if_neg (by omega), if_neg (by omega)]
  | jump _ | jumpIf _ | jumpUnless _ | br _ _ _ | brIf _ _ _ =>
    obtain ⟨k, rfl⟩ := Nat.exists_eq_add_of_le' (show 1 ≤ entry from h)
    rfl
  | _ => rfl

end Instr

namespace Code

variable {c c' : Code} {slot : Slot} {slots : List Slot} {target : UInt32}

/-- The instructions as a list. -/
def list (c : Code) : List Instr :=
  c.instrs.toList

/-- The code with the targets that `f` assigns. -/
def retarget (f : Slot → Option UInt32) (c : Code) : Code :=
  { c with instrs := c.instrs.mapIdx fun p i => i.retarget fun k => f ⟨p, k⟩ }

theorem list_retarget (f : Slot → Option UInt32) (c : Code) :
    (c.retarget f).list = c.list.mapIdx fun p i => i.retarget fun k => f ⟨p, k⟩ := by
  rw [list, retarget, list, Array.toList_mapIdx]

@[simp] theorem size_retarget (f : Slot → Option UInt32) (c : Code) :
    (c.retarget f).size = c.size := rfl

@[simp] theorem retarget_none (c : Code) : c.retarget (fun _ => none) = c := by
  have hinstrs : (c.instrs.mapIdx fun _ i => i.retarget fun _ => none) = c.instrs :=
    Array.ext (by simp) (by simp)
  rw [retarget, hinstrs]

theorem retarget_retarget (f g : Slot → Option UInt32) (c : Code) :
    (c.retarget f).retarget g = c.retarget fun σ => (g σ).or (f σ) := by
  simp [retarget, Array.mapIdx_mapIdx, Function.comp_def, Instr.retarget_retarget]

/-- Only what is assigned to slots of the code matters. -/
theorem retarget_congr {f g : Slot → Option UInt32}
    (h : ∀ σ : Slot, σ.position < c.instrs.size → f σ = g σ) : c.retarget f = c.retarget g := by
  have hinstrs : (c.instrs.mapIdx fun p i => i.retarget fun k => f ⟨p, k⟩) =
      c.instrs.mapIdx fun p i => i.retarget fun k => g ⟨p, k⟩ := by
    refine Array.ext (by simp) fun p hp _ => ?_
    rw [Array.getElem_mapIdx, Array.getElem_mapIdx]
    rw [Array.size_mapIdx] at hp
    exact Instr.retarget_congr fun k _ => h ⟨p, k⟩ hp
  rw [retarget, retarget, hinstrs]

/-- The instruction of a slot has the target that the slot names. -/
def HasSlot (c : Code) (slot : Slot) : Prop :=
  ∃ i, c.instrs[slot.position]? = some i ∧ slot.entry < i.targetCount

theorem HasSlot.position_lt (h : c.HasSlot slot) : slot.position < c.instrs.size := by
  obtain ⟨i, hi, -⟩ := h
  exact (Array.getElem?_eq_some_iff.mp hi).1

theorem resolve_eq_ok_iff : c.resolve slot target = .ok c' ↔
    c.HasSlot slot ∧ c' = c.retarget fun σ => if σ = slot then some target else none := by
  rw [resolve]
  split
  · next hp =>
    have hget : c.instrs[slot.position]? = some c.instrs[slot.position] :=
      Array.getElem?_eq_getElem hp
    rcases Nat.lt_or_ge slot.entry c.instrs[slot.position].targetCount with hlt | hge
    · have hset : c.instrs.set slot.position (c.instrs[slot.position].retarget
          fun k => if k = slot.entry then some target else none) =
          c.instrs.mapIdx fun p i => i.retarget fun k =>
            if (⟨p, k⟩ : Slot) = slot then some target else none := by
        refine Array.ext (by simp) fun p hp _ => ?_
        rw [Array.getElem_set, Array.getElem_mapIdx]
        by_cases hps : slot.position = p
        · subst hps
          rw [if_pos rfl]
          congr 1
          funext k
          cases slot
          simp
        · rw [if_neg hps]
          have hnone : (fun k => if (⟨p, k⟩ : Slot) = slot then some target else none) =
              fun _ => none := by
            funext k
            rw [if_neg]
            rintro rfl
            exact hps rfl
          rw [hnone, Instr.retarget_none]
      rw [Instr.setTarget_eq_some hlt]
      simp only [hset, retarget, Except.ok.injEq]
      constructor
      · intro h
        exact ⟨⟨_, hget, hlt⟩, h.symm⟩
      · intro h
        exact h.2.symm
    · rw [Instr.setTarget_eq_none hge]
      constructor
      · intro h
        cases h
      · rintro ⟨⟨i, hi, hlt⟩, -⟩
        rw [hget] at hi
        cases hi
        omega
  · next hp =>
    constructor
    · intro h
      cases h
    · rintro ⟨h, -⟩
      exact absurd h.position_lt hp

theorem hasSlot_retarget {f : Slot → Option UInt32} :
    (c.retarget f).HasSlot slot ↔ c.HasSlot slot := by
  rw [HasSlot, HasSlot, retarget]
  simp only [Array.getElem?_mapIdx, Option.map_eq_some_iff]
  constructor
  · rintro ⟨i, ⟨j, hj, rfl⟩, hlt⟩
    exact ⟨j, hj, by simpa using hlt⟩
  · rintro ⟨j, hj, hlt⟩
    exact ⟨_, ⟨j, hj, rfl⟩, by simpa using hlt⟩

theorem offset_retarget (f : Slot → Option UInt32) (c : Code) : (c.retarget f).offset = c.offset := rfl

/-- **Resolving slots gives them the offset of the next instruction.**  It fails only for a slot that there is not. -/
theorem resolveHere_eq_ok_iff : c.resolveHere slots = .ok c' ↔
    (∀ slot ∈ slots, c.HasSlot slot) ∧
      c' = c.retarget fun σ => if σ ∈ slots then some c.offset else none := by
  rw [resolveHere]
  induction slots generalizing c with
  | nil =>
    rw [List.foldlM_nil]
    simp only [List.not_mem_nil, false_imp_iff, implies_true, if_false, retarget_none, true_and]
    constructor
    · intro h
      cases h
      rfl
    · rintro rfl
      rfl
  | cons slot slots ih =>
    rw [List.foldlM_cons]
    have hcons : ∀ d : Code, d = c.retarget (fun σ => if σ = slot then some c.offset else none) →
        (d.retarget fun σ => if σ ∈ slots then some d.offset else none) =
          c.retarget fun σ => if σ ∈ slot :: slots then some c.offset else none := by
      rintro d rfl
      rw [retarget_retarget, offset_retarget]
      congr 1
      funext σ
      by_cases h : σ ∈ slots
      · simp [h]
      · by_cases h' : σ = slot
        · subst h'
          simp [h]
        · simp [h, h']
    cases hr : c.resolve slot c.offset with
    | error d =>
      constructor
      · intro h
        cases h
      · rintro ⟨h, -⟩
        rw [resolve_eq_ok_iff.mpr ⟨h slot List.mem_cons_self, rfl⟩] at hr
        cases hr
    | ok d =>
      obtain ⟨hslot, hd⟩ := resolve_eq_ok_iff.mp hr
      show List.foldlM _ d slots = _ ↔ _
      rw [ih, hcons d hd, List.forall_mem_cons]
      simp only [hd, hasSlot_retarget, hslot, true_and]

/-! ## Emitting -/

@[simp] theorem list_emit (c : Code) (i : Instr) : (c.emit i).list = c.list ++ [i] := by
  cases c
  simp [emit, list]

@[simp] theorem size_emit (c : Code) (i : Instr) : (c.emit i).size = c.size + i.size := rfl

@[simp] theorem length_list (c : Code) : c.list.length = c.instrs.size := rfl

theorem size_instrs_emit (c : Code) (i : Instr) : (c.emit i).instrs.size = c.instrs.size + 1 := by
  rw [← length_list, list_emit, List.length_append, length_list]
  rfl

theorem getElem?_instrs (c : Code) (p : ℕ) : c.instrs[p]? = c.list[p]? := by
  rw [list, Array.getElem?_toList]

theorem HasSlot.emit (h : c.HasSlot slot) (i : Instr) : (c.emit i).HasSlot slot := by
  obtain ⟨j, hj, hlt⟩ := h
  refine ⟨j, ?_, hlt⟩
  rw [getElem?_instrs] at hj ⊢
  rw [list_emit, List.getElem?_append_left (List.getElem?_eq_some_iff.mp hj).1]
  exact hj

theorem hasSlot_emit_next {i : Instr} {k : ℕ} (h : k < i.targetCount) :
    (c.emit i).HasSlot (c.nextSlot k) := by
  refine ⟨i, ?_, h⟩
  rw [getElem?_instrs, list_emit, nextSlot, ← length_list]
  exact List.getElem?_concat_length

theorem list_retarget_emit (f : Slot → Option UInt32) (c : Code) (i : Instr) :
    ((c.emit i).retarget f).list =
      (c.retarget f).list ++ [i.retarget fun k => f (c.nextSlot k)] := by
  rw [list_retarget, list_emit, List.mapIdx_append, ← list_retarget]
  simp [nextSlot]

/-- The size of code is the number of its bytes. -/
def Sized (c : Code) : Prop :=
  c.size = (encode c.list).length

theorem encode_append (is js : List Instr) : encode (is ++ js) = encode is ++ encode js :=
  List.flatMap_append

theorem encode_singleton (i : Instr) : encode [i] = i.encode := by
  simp [encode]

theorem sized_empty : ({} : Code).Sized := rfl

theorem Sized.emit (h : c.Sized) (i : Instr) : (c.emit i).Sized := by
  rw [Sized, size_emit, list_emit, encode_append, List.length_append, encode_singleton, h]
  rfl

theorem length_encode_mapIdx_retarget (f : ℕ → ℕ → Option UInt32) (is : List Instr) :
    (encode (is.mapIdx fun p i => i.retarget (f p))).length = (encode is).length := by
  induction is generalizing f with
  | nil => rfl
  | cons i is ih =>
    have hi : ∀ j : Instr, j.encode.length = j.size := fun _ => rfl
    rw [List.mapIdx_cons, encode, encode, List.flatMap_cons, List.flatMap_cons, List.length_append,
      List.length_append, hi, hi, Instr.size_retarget]
    exact congrArg _ (ih fun p => f (p + 1))

theorem length_encode_retarget (f : Slot → Option UInt32) (c : Code) :
    (encode (c.retarget f).list).length = (encode c.list).length := by
  rw [list_retarget]
  exact length_encode_mapIdx_retarget _ _

theorem Sized.retarget (h : c.Sized) (f : Slot → Option UInt32) : (c.retarget f).Sized := by
  rw [Sized, length_encode_retarget]
  exact h

end Code

end FlatWasm.Flat
