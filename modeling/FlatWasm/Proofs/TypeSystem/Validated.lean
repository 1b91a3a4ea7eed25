import Mathlib
import FlatWasm.Module.Check
import FlatWasm.Proofs.Typing.Frames

/-!
# What the check of a module gives

The index spaces of a description may lack types, and types may be any bytes.  The check of the sections refuses such
modules.  This module carries what it has seen section by section over to the index spaces: every type is there, every
function has one, and all value types are numeric.

The index spaces are built in passes over the sections, and each pass adds entries one by one.  So the statement is an
invariant of one addition, and `foldlM_invariant` takes it over a pass.
-/

namespace FlatWasm

/-- Numeric types only. -/
def AllNumeric (ts : List ValueType) : Prop :=
  ∀ t ∈ ts, t.isNumeric = true

theorem AllNumeric.append {ts us : List ValueType} (ht : AllNumeric ts) (hu : AllNumeric us) :
    AllNumeric (ts ++ us) :=
  List.forall_mem_append.mpr ⟨ht, hu⟩

theorem AllNumeric.reverse {ts : List ValueType} (h : AllNumeric ts) : AllNumeric ts.reverse :=
  fun t ht => h t (List.mem_reverse.mp ht)

/-- No numeric type is `bottom`. -/
theorem AllNumeric.ne_bottom {ts : List ValueType} (h : AllNumeric ts) :
    ∀ t ∈ ts, t ≠ .bottom := by
  rintro t ht rfl
  cases h _ ht

theorem allNumeric_singleton {t : ValueType} : AllNumeric [t] ↔ t.isNumeric = true :=
  List.forall_mem_singleton

/-- A function type of numeric types only. -/
structure FuncType.IsNumeric (type : FuncType) : Prop where
  params : AllNumeric type.params
  results : AllNumeric type.results

/-- Nothing is missing in index spaces, and all value types are numeric. -/
structure IndexSpace.Complete (space : IndexSpace) : Prop where
  types : ∀ o ∈ space.types, ∃ type, o = some type ∧ type.IsNumeric
  importedFunctions : ∀ i ∈ space.functions.imported, i.toNat < space.types.length
  definedFunctions : ∀ i ∈ space.functions.defined, i.toNat < space.types.length
  importedGlobals : ∀ o ∈ space.globals.imported, ∃ g, o = some g ∧ g.valueType.isNumeric = true
  definedGlobals : ∀ o ∈ space.globals.defined, ∃ g, o = some g ∧ g.valueType.isNumeric = true

/-! ## Checks -/

theorem Except.mapError_eq_ok_iff {ε ε' α : Type} {x : Except ε α} {f : ε → ε'} {a : α} :
    x.mapError f = .ok a ↔ x = .ok a := by
  cases x <;> simp [Except.mapError]

/-- A check of every item succeeds exactly if each check does. -/
theorem Except.forM_eq_ok_iff {ε α : Type} {items : List α} {check : α → Except ε Unit} :
    items.forM check = .ok () ↔ ∀ a ∈ items, check a = .ok () := by
  induction items with
  | nil =>
    refine ⟨fun _ a ha => ?_, fun _ => rfl⟩
    cases ha
  | cons a items ih =>
    show (check a >>= fun _ => items.forM check) = .ok () ↔ _
    rw [Except.bind_eq_ok_iff, List.forall_mem_cons, ← ih]
    exact ⟨fun ⟨_, ha, h⟩ => ⟨ha, h⟩, fun ⟨ha, h⟩ => ⟨(), ha, h⟩⟩

/-- What holds at the start and is kept by each step holds at the end of a pass. -/
theorem Except.foldlM_invariant {ε α β : Type} {I : β → Prop} {step : β → α → Except ε β}
    {items : List α} {b b' : β} (hstep : ∀ a ∈ items, ∀ b b', I b → step b a = .ok b' → I b')
    (h : items.foldlM step b = .ok b') (hb : I b) : I b' := by
  induction items generalizing b with
  | nil =>
    cases h
    exact hb
  | cons a items ih =>
    rw [List.foldlM_cons] at h
    obtain ⟨b₁, h₁, h'⟩ := Except.bind_eq_ok_iff.mp h
    obtain ⟨ha, hitems⟩ := List.forall_mem_cons.mp hstep
    exact ih hitems h' (ha b b₁ hb h₁)

theorem checkNumeric_eq_ok_iff {ε : Type} {error : ValueType → ε} {types : List ValueType} :
    checkNumeric error types = .ok () ↔ AllNumeric types := by
  rw [checkNumeric]
  cases h : types.find? (!·.isNumeric) with
  | none => simpa [AllNumeric] using h
  | some t =>
    have ht := List.find?_some h
    have hmem := List.mem_of_find?_eq_some h
    constructor
    · intro h'
      cases h'
    · intro hall
      rw [hall t hmem] at ht
      cases ht

namespace Module

/-- A check of a section has looked at every item. -/
theorem exists_of_checkEach {ε α : Type} {items : List α} {check : ℕ → α → Except ε Unit}
    (h : checkEach items check = .ok ()) {a : α} (ha : a ∈ items) : ∃ i, check i a = .ok () := by
  obtain ⟨i, hi⟩ : ∃ i, (a, i) ∈ items.zipIdx := by
    obtain ⟨i, hi⟩ := List.mem_iff_getElem?.mp ha
    exact ⟨i, List.mem_zipIdx_iff_getElem?.mpr hi⟩
  exact ⟨i, Except.forM_eq_ok_iff.mp h _ hi⟩

/-- What the check of the sections says of types. -/
structure IsChecked (m : Module) : Prop where
  types : ∀ o ∈ m.types, ∃ type, o = some type ∧ type.IsNumeric
  importedGlobals : ∀ im ∈ m.imports, ∀ o, im.desc = .global o →
    ∃ g, o = some g ∧ g.valueType.isNumeric = true
  definedGlobals : ∀ g ∈ m.globals, ∃ type, g.type = some type ∧ type.valueType.isNumeric = true

theorem isChecked_of_checkShape {m : Module} {ceiling : UInt32}
    (h : m.checkShape ceiling = .ok ()) : m.IsChecked := by
  rw [checkShape] at h
  obtain ⟨⟨⟩, htypes, h⟩ := Except.bind_eq_ok_iff.mp h
  dsimp only at h
  split at h
  · cases h
  obtain ⟨-, -, h⟩ := Except.bind_eq_ok_iff.mp h
  obtain ⟨⟨⟩, himports, h⟩ := Except.bind_eq_ok_iff.mp h
  obtain ⟨-, -, h⟩ := Except.bind_eq_ok_iff.mp h
  obtain ⟨-, -, hglobals⟩ := Except.bind_eq_ok_iff.mp h
  refine ⟨fun o ho => ?_, fun im him o ho => ?_, fun g hg => ?_⟩
  · obtain ⟨i, hi⟩ := exists_of_checkEach htypes ho
    cases o with
    | none => cases hi
    | some type =>
      obtain ⟨hp, hr⟩ := List.forall_mem_append.mp (checkNumeric_eq_ok_iff.mp hi)
      exact ⟨type, rfl, hp, hr⟩
  · obtain ⟨i, hi⟩ := exists_of_checkEach himports him
    rw [Except.mapError_eq_ok_iff, ho] at hi
    cases o with
    | none => cases hi
    | some g => exact ⟨g, rfl, allNumeric_singleton.mp (checkNumeric_eq_ok_iff.mp hi)⟩
  · obtain ⟨i, hi⟩ := exists_of_checkEach hglobals hg
    cases ht : g.type with
    | none =>
      rw [ht] at hi
      cases hi
    | some type =>
      rw [ht] at hi
      exact ⟨type, rfl, allNumeric_singleton.mp (checkNumeric_eq_ok_iff.mp hi)⟩

end Module

/-! ## Index spaces -/

namespace IndexSpace.Builder

variable {b b' : Builder}

theorem update_eq_ok {change : IndexSpace → Except Error IndexSpace}
    (h : b.update change = .ok b') : change b.space = .ok b'.space := by
  rw [update] at h
  split at h
  · cases h
  · split at h
    · next hc =>
      cases h
      exact hc
    · cases h

/-- An import keeps index spaces complete if the check of imports has seen it. -/
theorem complete_addImport {im : Import} (hb : b.space.Complete)
    (him : ∀ o, im.desc = .global o → ∃ g, o = some g ∧ g.valueType.isNumeric = true)
    (h : b.addImport im = .ok b') : b'.space.Complete := by
  have hchange := update_eq_ok h
  cases hd : im.desc with
  | func typeIndex =>
    rw [hd] at hchange
    obtain ⟨-, -, h'⟩ := Except.bind_eq_ok_iff.mp hchange
    dsimp only at h'
    split at h'
    · cases h'
    · next hlt =>
      rw [← Except.ok.inj h']
      refine ⟨hb.types, ?_, hb.definedFunctions, hb.importedGlobals, hb.definedGlobals⟩
      exact List.forall_mem_append.mpr ⟨hb.importedFunctions,
        List.forall_mem_singleton.mpr (Nat.lt_of_not_le hlt)⟩
  | global type =>
    rw [hd] at hchange
    obtain ⟨-, -, h'⟩ := Except.bind_eq_ok_iff.mp hchange
    rw [← Except.ok.inj h']
    refine ⟨hb.types, hb.importedFunctions, hb.definedFunctions, ?_, hb.definedGlobals⟩
    exact List.forall_mem_append.mpr ⟨hb.importedGlobals, List.forall_mem_singleton.mpr (him _ hd)⟩
  | memory limits =>
    rw [hd] at hchange
    obtain ⟨-, -, h'⟩ := Except.bind_eq_ok_iff.mp hchange
    rw [← Except.ok.inj h']
    exact ⟨hb.types, hb.importedFunctions, hb.definedFunctions, hb.importedGlobals,
      hb.definedGlobals⟩
  | table limits =>
    rw [hd] at hchange
    obtain ⟨-, -, h'⟩ := Except.bind_eq_ok_iff.mp hchange
    rw [← Except.ok.inj h']
    exact ⟨hb.types, hb.importedFunctions, hb.definedFunctions, hb.importedGlobals,
      hb.definedGlobals⟩
  | other kind =>
    rw [hd] at hchange
    cases hchange

theorem complete_addFunction {typeIndex : UInt32} (hb : b.space.Complete)
    (h : b.addFunction typeIndex = .ok b') : b'.space.Complete := by
  have hchange := update_eq_ok h
  split at hchange
  · cases hchange
  · next hlt =>
    rw [← Except.ok.inj hchange]
    refine ⟨hb.types, hb.importedFunctions, ?_, hb.importedGlobals, hb.definedGlobals⟩
    exact List.forall_mem_append.mpr ⟨hb.definedFunctions,
      List.forall_mem_singleton.mpr (Nat.lt_of_not_le hlt)⟩

theorem complete_addGlobal {type : Option GlobalType} (hb : b.space.Complete)
    (ht : ∃ g, type = some g ∧ g.valueType.isNumeric = true)
    (h : b.addGlobal type = .ok b') : b'.space.Complete := by
  have hchange := update_eq_ok h
  rw [← Except.ok.inj hchange]
  refine ⟨hb.types, hb.importedFunctions, hb.definedFunctions, hb.importedGlobals, ?_⟩
  exact List.forall_mem_append.mpr ⟨hb.definedGlobals, List.forall_mem_singleton.mpr ht⟩

theorem complete_addMemory {limits : Option Limits} (hb : b.space.Complete)
    (h : b.addMemory limits = .ok b') : b'.space.Complete := by
  have hchange := update_eq_ok h
  rw [← Except.ok.inj hchange]
  exact ⟨hb.types, hb.importedFunctions, hb.definedFunctions, hb.importedGlobals,
    hb.definedGlobals⟩

theorem complete_addTable {limits : Option Limits} (hb : b.space.Complete)
    (h : b.addTable limits = .ok b') : b'.space.Complete := by
  have hchange := update_eq_ok h
  rw [← Except.ok.inj hchange]
  exact ⟨hb.types, hb.importedFunctions, hb.definedFunctions, hb.importedGlobals,
    hb.definedGlobals⟩

end IndexSpace.Builder

/-- **The index spaces of a module that is checked are complete.** -/
theorem IndexSpace.complete_of_checkShape {m : Module} {ceiling : UInt32} {space : IndexSpace}
    (hm : m.checkShape ceiling = .ok ()) (hs : m.indexSpace = .ok space) : space.Complete := by
  have hchecked := Module.isChecked_of_checkShape hm
  have hempty : (Builder.ofTypes m.types).space.Complete :=
    ⟨hchecked.types, nofun, nofun, nofun, nofun⟩
  rw [Module.indexSpace] at hs
  obtain ⟨b₁, h₁, hs⟩ := Except.bind_eq_ok_iff.mp hs
  obtain ⟨b₂, h₂, hs⟩ := Except.bind_eq_ok_iff.mp hs
  obtain ⟨b₃, h₃, hs⟩ := Except.bind_eq_ok_iff.mp hs
  obtain ⟨b₄, h₄, hs⟩ := Except.bind_eq_ok_iff.mp hs
  obtain ⟨b₅, h₅, hs⟩ := Except.bind_eq_ok_iff.mp hs
  obtain ⟨b₆, h₆, hs⟩ := Except.bind_eq_ok_iff.mp hs
  rw [Except.mapError_eq_ok_iff] at h₂ h₃ h₄ h₅ h₆
  have hc₁ : b₁.space.Complete := by
    refine Except.foldlM_invariant (I := fun b => b.space.Complete) (fun p hp b b' hb h => ?_) h₁ hempty
    obtain ⟨im, i⟩ := p
    have him : im ∈ m.imports := List.fst_mem_of_mem_zipIdx hp
    exact Builder.complete_addImport hb (hchecked.importedGlobals im him)
      (Except.mapError_eq_ok_iff.mp h)
  have hc₂ : b₂.space.Complete :=
    Except.foldlM_invariant (I := fun b => b.space.Complete) (fun _ _ _ _ hb h => Builder.complete_addFunction hb h) h₂ hc₁
  have hc₃ : b₃.space.Complete := by
    refine Except.foldlM_invariant (I := fun b => b.space.Complete) (fun type ht _ _ hb h => ?_) h₃ hc₂
    obtain ⟨g, hg, rfl⟩ := List.mem_map.mp ht
    exact Builder.complete_addGlobal hb (hchecked.definedGlobals g hg) h
  have hc₄ : b₄.space.Complete :=
    Except.foldlM_invariant (I := fun b => b.space.Complete) (fun _ _ _ _ hb h => Builder.complete_addMemory hb h) h₄ hc₃
  have hc₅ : b₅.space.Complete :=
    Except.foldlM_invariant (I := fun b => b.space.Complete) (fun _ _ _ _ hb h => Builder.complete_addTable hb h) h₅ hc₄
  have hc₆ : b₆.space = b₅.space := by
    rw [Builder.build] at h₆
    split at h₆
    · cases h₆
    · rw [← Except.ok.inj h₆]
  rw [← Except.ok.inj hs, hc₆]
  exact hc₅

end FlatWasm
