import Mathlib
import FlatWasm.Proofs.Flat.Paths
import FlatWasm.Proofs.Flow.Sites
import FlatWasm.Proofs.TypeSystem.Operators

/-!
# From one site to the next

A path leaves an instruction by one of its ways.  `Site.exists_next` says where this leads, and what is known there: the
chart has the offset, what is selected there is what the slots hold, and the height is what the instruction makes of the
height before it.  It is the only case distinction on sites that a statement about paths needs.

## Why heights are under a condition

An instruction drops as many values as the word in it says.  This is the number that the layout computes only if words
are large enough for heights.  What is selected does not depend on it, so the two statements are kept apart by the
condition and not by two proofs.
-/

namespace FlatWasm

open Source Lowering

/-! ## What a selection says of slots -/

namespace Lowering.Selection

/-- What a selection is certain of is so. -/
def Holds (s : Selection) (slots : Flat.Slots) : Prop :=
  ∀ kind l, s.get kind = some l → slots kind = some (l.origin.code, l.position)

variable {s : Selection} {slots : Flat.Slots}

theorem holds_unknown (slots : Flat.Slots) : unknown.Holds slots := by
  intro kind l h
  cases kind <;> cases h

theorem Holds.mono {a : Selection} (h : s.Holds slots) (hle : a ≤ s) : a.Holds slots :=
  fun kind l hl => h kind l (le_def.mp hle kind l hl)

theorem Holds.set (h : s.Holds slots) (kind : Flat.StoreKind) (store : Location) :
    (s.set kind (some store)).Holds
      (Function.update slots kind (some (store.origin.code, store.position))) := by
  intro kind' l hl
  by_cases hk : kind' = kind
  · subst hk
    rw [get_set_self] at hl
    cases hl
    exact Function.update_self ..
  · rw [get_set_of_ne _ hk] at hl
    rw [Function.update_of_ne hk]
    exact h kind' l hl

theorem Holds.set_none (h : s.Holds slots) (kind : Flat.StoreKind) :
    (s.set kind none).Holds (Function.update slots kind none) := by
  intro kind' l hl
  by_cases hk : kind' = kind
  · subst hk
    rw [get_set_self] at hl
    cases hl
  · rw [get_set_of_ne _ hk] at hl
    rw [Function.update_of_ne hk]
    exact h kind' l hl

end Lowering.Selection

/-! ## What a resolved instruction refers to -/

namespace Source.Op

variable {scope : Scope} {depth : ℕ} {o : Op}

theorem exists_function_of_resolve {loc : Location} {type : FuncType}
    (h : o.resolve scope depth = some (.call loc type)) :
    ∃ x, scope.space.function x = .ok (loc, some type) := by
  cases o <;> simp [resolve, Option.bind_eq_some_iff] at h
  exact ⟨_, toOption_eq_some_iff.mp h⟩

theorem type_of_resolve {y : UInt32} {type : FuncType} {table : Location}
    (h : o.resolve scope depth = some (.callIndirect y type table)) :
    scope.space.types[y.toNat]?.join = some type := by
  cases o <;> simp [resolve, Option.bind_eq_some_iff] at h
  obtain ⟨htype, -, rfl⟩ := h
  have htype := toOption_eq_some_iff.mp htype
  rw [IndexSpace.type] at htype
  split at htype
  · next t ht =>
    cases htype
    rw [ht]
    rfl
  · cases htype

end Source.Op

/-- A function that is called is found again at its position. -/
theorem IndexSpace.typeAt?_of_function {space : IndexSpace} {i : UInt32} {loc : Location}
    {type : FuncType} (h : space.function i = .ok (loc, some type)) :
    space.typeAt? (match loc.origin with
      | .imported => space.functions.imported
      | .defined => space.functions.defined) loc.position = some type := by
  rw [function] at h
  split at h
  · next loc' t hget =>
    obtain ⟨rfl, htype⟩ := Prod.mk.inj (Except.ok.inj h)
    obtain ⟨t', hentry, heq⟩ := Option.map_eq_some_iff.mp hget
    obtain ⟨rfl, rfl⟩ := Prod.mk.inj heq
    rcases Nat.lt_or_ge i.toNat space.functions.imported.length with hlt | hge
    · rw [List.getElem?_append_left hlt] at hentry
      rw [Namespace.locate, if_pos hlt, typeAt?, hentry]
      exact htype
    · have hlt := i.toNat_lt
      have hposition : (i - UInt32.ofNat space.functions.imported.length).toNat =
          i.toNat - space.functions.imported.length := by
        rw [UInt32.toNat_sub_of_le _ _ (by rw [UInt32.le_iff_toNat_le, toNat_word] <;> omega),
          toNat_word (by omega)]
      rw [List.getElem?_append_right hge] at hentry
      rw [Namespace.locate, if_neg (Nat.not_lt.mpr hge), typeAt?, hposition, hentry]
      exact htype
  · cases h

/-! ## Plain instructions -/

namespace Instr

variable {i : Instr} {j : Flat.Instr}

/-- After a plain instruction comes the next one. -/
theorem ways_of_flat (h : i.flat? = some j) (pc : ℕ) : j.ways pc = [(pc + j.size, 0)] := by
  cases i with
  | call callee type =>
    obtain ⟨origin, position⟩ := callee
    cases origin <;> cases h <;> rfl
  | access a offset memory => cases a <;> cases h <;> rfl
  | _ => cases h <;> rfl

/-- What is forgotten is what the slots lose. -/
theorem holds_of_flat (h : i.flat? = some j) {s : Selection} {slots : Flat.Slots}
    (hs : s.Holds slots) : (i.forgetting s).Holds (j.slotsAfter slots) := by
  cases i with
  | call callee type => exact Selection.holds_unknown _
  | callIndirect typeIndex type table => exact Selection.holds_unknown _
  | memoryGrow memory =>
    cases h
    exact hs.set_none .memory
  | access a offset memory => cases a <;> cases h <;> exact hs
  | _ => cases h <;> exact hs

/-- A plain instruction and what it becomes take and leave the same number of values. -/
theorem effect?_of_flat {scope : Scope} {depth : ℕ} {o : Op}
    (ho : o.resolve scope depth = some i) (h : i.flat? = some j) :
    j.effect? scope.space = i.effect? := by
  cases i with
  | call callee type =>
    obtain ⟨x, hx⟩ := Op.exists_function_of_resolve ho
    have htype := IndexSpace.typeAt?_of_function hx
    obtain ⟨origin, position⟩ := callee
    cases origin <;> cases h <;> exact congrArg (Option.map _) htype
  | callIndirect typeIndex type table =>
    cases h
    rw [Flat.Instr.effect?, Op.type_of_resolve ho,
      effect?_of_type (i := .callIndirect typeIndex type table) rfl, List.length_append]
    rfl
  | access a offset memory => cases a <;> cases h <;> rfl
  | truncate op =>
    cases h
    fin_cases op <;> rfl
  | _ => cases h <;> rfl

end Instr

/-! ## Branches -/

namespace Lowering.BranchKind

variable {keep drop target : UInt32} {pc next dropped : ℕ}

theorem mem_ways_always :
    (next, dropped) ∈ (always.instr keep drop target).ways pc ↔
      next = target.toNat ∧ dropped = drop.toNat := by
  rw [instr]
  split
  · next h =>
    rw [h]
    simp [Flat.Instr.ways]
  · simp [Flat.Instr.ways]

theorem mem_ways_ifNonzero :
    (next, dropped) ∈ (ifNonzero.instr keep drop target).ways pc ↔
      next = target.toNat ∧ dropped = drop.toNat ∨
      next = pc + (ifNonzero.instr keep drop target).size ∧ dropped = 0 := by
  rw [instr]
  split
  · next h =>
    rw [h]
    simp [Flat.Instr.ways]
  · simp [Flat.Instr.ways]

@[simp] theorem slotsAfter_instr (kind : BranchKind) (keep drop target : UInt32)
    (slots : Flat.Slots) : (kind.instr keep drop target).slotsAfter slots = slots := by
  cases kind <;> rw [instr] <;> split <;> rfl

theorem effect?_instr (kind : BranchKind) (keep drop target : UInt32) (space : IndexSpace) :
    (kind.instr keep drop target).effect? space =
      some (match kind with | .always => 0 | .ifNonzero => 1, 0) := by
  cases kind <;> rw [instr] <;> split <;> rfl

end Lowering.BranchKind

/-- The ways out of a table are its entries that have a target. -/
theorem Exit.exists_of_mem_ways {c : Listing} {L : ℕ → Point → Prop} {x : Exit} {xs : List Exit}
    {keep : UInt32} {p : Point} {pc next dropped : ℕ} (ht : ∀ y ∈ xs ++ [x], y.Taken c L p)
    (hw : (next, dropped) ∈ (Flat.Instr.brTable keep (xs.map (·.entry c.scope p.height))
      (x.entry c.scope p.height)).ways pc) :
    ∃ y ∈ xs ++ [x], y.target = some next ∧
      dropped = (UInt32.ofNat (y.dropped p.height)).toNat := by
  obtain ⟨e, he, heq⟩ := List.mem_map.mp hw
  obtain ⟨hmem, hne⟩ := List.mem_filter.mp he
  rw [show xs.map (·.entry c.scope p.height) ++ [x.entry c.scope p.height] =
    (xs ++ [x]).map (·.entry c.scope p.height) by rw [List.map_append]; rfl] at hmem
  obtain ⟨y, hy, rfl⟩ := List.mem_map.mp hmem
  obtain ⟨rfl, rfl⟩ := Prod.mk.inj heq
  refine ⟨y, hy, ?_⟩
  rw [Exit.entry] at hne ⊢
  cases htarget : y.target with
  | none => simp [htarget] at hne
  | some t =>
    have hlt := ((ht y hy).lands t htarget).1
    exact ⟨by rw [toNat_word (by omega)], rfl⟩

/-! ## Sites -/

/-- What is known at an offset where an instruction leads to: which stores are selected, and how many operands there
are. -/
structure Site.Leads (c : Listing) (p : Point) (j : Flat.Instr) (dropped : ℕ) (q : Point) : Prop where
  holds : ∀ slots, p.selected.Holds slots → q.selected.Holds (j.slotsAfter slots)
  height : (∀ h, c.Within h → h < 2 ^ 32) → ∃ pops pushes,
    j.effect? c.scope.space = some (pops, pushes) ∧ pops ≤ p.height ∧
      p.height - pops + pushes = q.height + dropped

section

variable {c : Listing} {L : ℕ → Point → Prop} {n next dropped : ℕ} {p : Point} {j : Flat.Instr}

theorem Exit.Taken.height_eq {x : Exit} {h : ℕ} {s : Selection} (ht : x.Taken c L ⟨h, s⟩)
    (hlt : h < 2 ^ 32) :
    h = x.base + x.arity + (UInt32.ofNat (x.dropped h)).toNat := by
  have hcarried : x.base + x.arity ≤ h := ht.carried
  have hdropped : x.dropped h = h - x.arity - x.base := rfl
  rw [toNat_word (by omega)]
  omega

/-- **Every way out of a site leads to a place where something is known.** -/
theorem Site.exists_next (h : Site c L n p j) (hw : (next, dropped) ∈ j.ways n) :
    ∃ q, L next q ∧ Site.Leads c p j dropped q := by
  cases h with
  | unreachable => cases hw
  | @use i kind store hs hl =>
    obtain ⟨rfl, rfl⟩ := Prod.mk.inj (List.mem_singleton.mp hw)
    refine ⟨_, hl, fun slots hslots => ?_, fun _ => ⟨0, 0, rfl, Nat.zero_le _, rfl⟩⟩
    rw [Instr.selecting, hs]
    exact hslots.set kind store
  | plain ho hj he ha hm hs hl =>
    rw [Instr.ways_of_flat hj, List.mem_singleton] at hw
    obtain ⟨rfl, rfl⟩ := Prod.mk.inj hw
    exact ⟨_, hl, fun slots hslots => Instr.holds_of_flat hj hslots,
      fun _ => ⟨_, _, (Instr.effect?_of_flat ho hj).trans he, ha, rfl⟩⟩
  | jump ht hl =>
    obtain ⟨rfl, rfl⟩ := Prod.mk.inj (List.mem_singleton.mp hw)
    rw [toNat_word ht]
    exact ⟨p, hl, fun _ hslots => hslots, fun _ => ⟨0, 0, rfl, Nat.zero_le _, rfl⟩⟩
  | @jumpUnless t h ht hh hl hn =>
    have hleads : Site.Leads c p (.jumpUnless (UInt32.ofNat t)) 0 ⟨h, p.selected⟩ :=
      ⟨fun _ hslots => hslots, fun _ => ⟨1, 0, rfl, by omega, by simp [hh]⟩⟩
    rcases List.mem_pair.mp hw with heq | heq
    · obtain ⟨rfl, rfl⟩ := Prod.mk.inj heq
      rw [toNat_word ht]
      exact ⟨_, hl, hleads⟩
    · obtain ⟨rfl, rfl⟩ := Prod.mk.inj heq
      exact ⟨_, hn, hleads⟩
  | @branch x t hx hb ha =>
    obtain ⟨rfl, rfl⟩ := BranchKind.mem_ways_always.mp hw
    obtain ⟨hlt, hl⟩ := ha.lands t hx
    rw [toNat_word (by omega)]
    refine ⟨_, hl, fun slots hslots => by rwa [BranchKind.slotsAfter_instr], fun hfit => ?_⟩
    exact ⟨0, 0, BranchKind.effect?_instr .always _ _ _ _, Nat.zero_le _,
      ha.height_eq (hfit _ hb)⟩
  | @branchIf x t h _ hx hb hh ha hj hn =>
    subst hj
    have heffect := BranchKind.effect?_instr .ifNonzero (UInt32.ofNat x.arity)
      (UInt32.ofNat (x.dropped h)) (UInt32.ofNat t) c.scope.space
    rcases BranchKind.mem_ways_ifNonzero.mp hw with ⟨rfl, rfl⟩ | ⟨rfl, rfl⟩
    · obtain ⟨hlt, hl⟩ := ha.lands t hx
      rw [toNat_word (by omega)]
      refine ⟨_, hl, fun slots hslots => by rwa [BranchKind.slotsAfter_instr], fun hfit => ?_⟩
      have hbound := hfit _ hb
      have heq := ha.height_eq (by omega)
      exact ⟨1, 0, heffect, by omega, by simpa [hh] using heq⟩
    · refine ⟨_, hn, fun slots hslots => by rwa [BranchKind.slotsAfter_instr], fun _ => ?_⟩
      exact ⟨1, 0, heffect, by omega, by simp [hh]⟩
  | ret hx hb ha => cases hw
  | @brTable x xs h hb hh harity ha =>
    obtain ⟨y, hy, htarget, rfl⟩ := Exit.exists_of_mem_ways ha hw
    have htaken := ha y hy
    refine ⟨_, (htaken.lands next htarget).2, fun _ hslots => hslots, fun hfit => ?_⟩
    have hbound := hfit _ hb
    have heq := htaken.height_eq (by omega)
    exact ⟨1, 0, rfl, by omega, by simpa [hh] using heq⟩

end

end FlatWasm
