import Mathlib
import FlatWasm.Linking.Instance
import FlatWasm.Proofs.Failures
import FlatWasm.Proofs.TypeSystem.Operators

/-!
# Which entry an index names

The index spaces of a module are built by adding its imports and then its definitions.  In the end each namespace holds the
imports of its kind, in their order among all imports, and then the definitions of its kind, however the kinds of imports are
mixed (`IndexSpace.isLaidOut_of_indexSpace`).  So an index below the number of imports of its kind names the import at that
position among them, and any other index names a definition (`Namespace.get?_imported`, `Namespace.get?_defined`).
-/

namespace FlatWasm

/-- The imports of a kind, in order. -/
def importsOf (kind : ExternKind) (imports : List Import) : List Import :=
  imports.filter fun im => im.desc.kind = kind

theorem importsOf_concat {kind : ExternKind} {seen : List Import} {im : Import}
    (h : im.desc.kind = kind) : importsOf kind (seen ++ [im]) = importsOf kind seen ++ [im] := by
  simp [importsOf, h]

theorem importsOf_concat_of_ne {kind : ExternKind} {seen : List Import} {im : Import}
    (h : im.desc.kind ≠ kind) : importsOf kind (seen ++ [im]) = importsOf kind seen := by
  simp [importsOf, h]

/-! ## Namespaces -/

namespace Namespace

variable {α : Type} {n : Namespace α}

/-- The imported entries of a namespace are the imports of its kind, in order; `desc` makes an import of an entry. -/
def ListsImports (n : Namespace α) (kind : ExternKind) (desc : α → ImportDesc)
    (imports : List Import) : Prop :=
  (importsOf kind imports).map Import.desc = n.imported.map desc

variable {kind : ExternKind} {desc : α → ImportDesc} {seen : List Import} {im : Import}

/-- One more import of the kind is one more entry. -/
theorem ListsImports.add (h : n.ListsImports kind desc seen) {a : α} (hd : im.desc = desc a)
    (hk : (desc a).kind = kind) : (n.addImport a).ListsImports kind desc (seen ++ [im]) := by
  rw [ListsImports] at h
  rw [ListsImports, importsOf_concat (hd ▸ hk), addImport, List.map_append, List.map_append, h,
    List.map_singleton, List.map_singleton, hd]

/-- An import of another kind is none. -/
theorem ListsImports.skip (h : n.ListsImports kind desc seen) {kind' : ExternKind}
    (hk : im.desc.kind = kind') (hne : kind' ≠ kind) :
    n.ListsImports kind desc (seen ++ [im]) := by
  rwa [ListsImports, importsOf_concat_of_ne (hk.trans_ne hne)]

theorem ListsImports.length_eq {imports : List Import} (h : n.ListsImports kind desc imports) :
    (importsOf kind imports).length = n.imported.length := by
  have hlength := congrArg List.length h
  rwa [List.length_map, List.length_map] at hlength

/-- The import at a position among those of its kind is what the entry at that position describes. -/
theorem ListsImports.exists_of_getElem? {imports : List Import} (h : n.ListsImports kind desc imports)
    {k : ℕ} (him : (importsOf kind imports)[k]? = some im) :
    ∃ a, n.imported[k]? = some a ∧ im.desc = desc a := by
  have hk : ((importsOf kind imports).map Import.desc)[k]? = (n.imported.map desc)[k]? :=
    congrArg (·[k]?) h
  rw [List.getElem?_map, List.getElem?_map, him] at hk
  obtain ⟨a, ha, hdesc⟩ := Option.map_eq_some_iff.mp hk.symm
  exact ⟨a, ha, hdesc.symm⟩

end Namespace

/-! ## Index spaces -/

namespace IndexSpace

/-- The imported entries of each namespace are the imports of its kind, in order, and each import is of one of these kinds. -/
structure ListsImports (space : IndexSpace) (imports : List Import) : Prop where
  functions : space.functions.ListsImports .func .func imports
  globals : space.globals.ListsImports .global .global imports
  memories : space.memories.ListsImports .memory .memory imports
  tables : space.tables.ListsImports .table .table imports
  kinds : ∀ im ∈ imports, ∀ kind, im.desc ≠ .other kind

/-- The entries of each namespace are what the module imports and then what it defines. -/
structure IsLaidOut (space : IndexSpace) (m : Module) : Prop where
  types : space.types = m.types
  imports : space.ListsImports m.imports
  functions : space.functions.defined = m.functions
  globals : space.globals.defined = m.globals.map Global.type
  memories : space.memories.defined = m.memories.map some
  tables : space.tables.defined = m.tables.map some

namespace Builder

variable {b b' : Builder}

theorem isLaidOut_addImport {m : Module} {im : Import} (hb : b.space.IsLaidOut m)
    (h : b.addImport im = .ok b') :
    b'.space.IsLaidOut { m with imports := m.imports ++ [im] } := by
  have hchange := update_eq_ok h
  have hi := hb.imports
  have hkinds : (∀ kind, im.desc ≠ .other kind) →
      ∀ im' ∈ m.imports ++ [im], ∀ kind, im'.desc ≠ .other kind := fun him =>
    List.forall_mem_append.mpr ⟨hi.kinds, List.forall_mem_singleton.mpr him⟩
  cases hd : im.desc with
  | func typeIndex =>
    rw [hd] at hchange
    obtain ⟨-, -, h'⟩ := Except.bind_eq_ok_iff.mp hchange
    dsimp only at h'
    split at h'
    · cases h'
    rw [← Except.ok.inj h']
    have hk : im.desc.kind = .func := congrArg ImportDesc.kind hd
    exact ⟨hb.types, ⟨hi.functions.add hd rfl, hi.globals.skip hk (by decide),
      hi.memories.skip hk (by decide), hi.tables.skip hk (by decide), hkinds (by simp [hd])⟩,
      hb.functions, hb.globals, hb.memories, hb.tables⟩
  | global type =>
    rw [hd] at hchange
    obtain ⟨-, -, h'⟩ := Except.bind_eq_ok_iff.mp hchange
    rw [← Except.ok.inj h']
    have hk : im.desc.kind = .global := congrArg ImportDesc.kind hd
    exact ⟨hb.types, ⟨hi.functions.skip hk (by decide), hi.globals.add hd rfl,
      hi.memories.skip hk (by decide), hi.tables.skip hk (by decide), hkinds (by simp [hd])⟩,
      hb.functions, hb.globals, hb.memories, hb.tables⟩
  | memory limits =>
    rw [hd] at hchange
    obtain ⟨-, -, h'⟩ := Except.bind_eq_ok_iff.mp hchange
    rw [← Except.ok.inj h']
    have hk : im.desc.kind = .memory := congrArg ImportDesc.kind hd
    exact ⟨hb.types, ⟨hi.functions.skip hk (by decide), hi.globals.skip hk (by decide),
      hi.memories.add hd rfl, hi.tables.skip hk (by decide), hkinds (by simp [hd])⟩,
      hb.functions, hb.globals, hb.memories, hb.tables⟩
  | table limits =>
    rw [hd] at hchange
    obtain ⟨-, -, h'⟩ := Except.bind_eq_ok_iff.mp hchange
    rw [← Except.ok.inj h']
    have hk : im.desc.kind = .table := congrArg ImportDesc.kind hd
    exact ⟨hb.types, ⟨hi.functions.skip hk (by decide), hi.globals.skip hk (by decide),
      hi.memories.skip hk (by decide), hi.tables.add hd rfl, hkinds (by simp [hd])⟩,
      hb.functions, hb.globals, hb.memories, hb.tables⟩
  | other kind =>
    rw [hd] at hchange
    cases hchange

theorem isLaidOut_addFunction {m : Module} {typeIndex : UInt32} (hb : b.space.IsLaidOut m)
    (h : b.addFunction typeIndex = .ok b') :
    b'.space.IsLaidOut { m with functions := m.functions ++ [typeIndex] } := by
  have hchange := update_eq_ok h
  split at hchange
  · cases hchange
  rw [← Except.ok.inj hchange]
  exact { hb with
    imports := { hb.imports with }
    functions := congrArg (· ++ [typeIndex]) hb.functions }

theorem isLaidOut_addGlobal {m : Module} {g : Global} (hb : b.space.IsLaidOut m)
    (h : b.addGlobal g.type = .ok b') :
    b'.space.IsLaidOut { m with globals := m.globals ++ [g] } := by
  have hchange := update_eq_ok h
  rw [← Except.ok.inj hchange]
  exact { hb with
    imports := { hb.imports with }
    globals := by rw [List.map_append, ← hb.globals]; rfl }

theorem isLaidOut_addMemory {m : Module} {limits : Limits} (hb : b.space.IsLaidOut m)
    (h : b.addMemory (some limits) = .ok b') :
    b'.space.IsLaidOut { m with memories := m.memories ++ [limits] } := by
  have hchange := update_eq_ok h
  rw [← Except.ok.inj hchange]
  exact { hb with
    imports := { hb.imports with }
    memories := by rw [List.map_append, ← hb.memories]; rfl }

theorem isLaidOut_addTable {m : Module} {limits : Limits} (hb : b.space.IsLaidOut m)
    (h : b.addTable (some limits) = .ok b') :
    b'.space.IsLaidOut { m with tables := m.tables ++ [limits] } := by
  have hchange := update_eq_ok h
  rw [← Except.ok.inj hchange]
  exact { hb with
    imports := { hb.imports with }
    tables := by rw [List.map_append, ← hb.tables]; rfl }

end Builder

/-- **The index spaces of a module hold what it imports and then what it defines.** -/
theorem isLaidOut_of_indexSpace {m : Module} {space : IndexSpace} (h : m.indexSpace = .ok space) :
    space.IsLaidOut m := by
  -- the module as far as the passes have seen it
  let part imports functions globals memories tables : Module :=
    { m with imports, functions, globals, memories, tables }
  have h₀ : (Builder.ofTypes m.types).space.IsLaidOut (part [] [] [] [] []) :=
    ⟨rfl, ⟨rfl, rfl, rfl, rfl, List.forall_mem_nil _⟩, rfl, rfl, rfl, rfl⟩
  rw [Module.indexSpace] at h
  obtain ⟨b₁, h₁, h⟩ := Except.bind_eq_ok_iff.mp h
  obtain ⟨b₂, h₂, h⟩ := Except.bind_eq_ok_iff.mp h
  obtain ⟨b₃, h₃, h⟩ := Except.bind_eq_ok_iff.mp h
  obtain ⟨b₄, h₄, h⟩ := Except.bind_eq_ok_iff.mp h
  obtain ⟨b₅, h₅, h⟩ := Except.bind_eq_ok_iff.mp h
  obtain ⟨b₆, h₆, h⟩ := Except.bind_eq_ok_iff.mp h
  rw [Except.mapError_eq_ok_iff] at h₂ h₃ h₄ h₅ h₆
  rw [List.foldlM_map] at h₃ h₄ h₅
  have hl₁ : b₁.space.IsLaidOut (part m.imports [] [] [] []) := by
    have hseen := Except.foldlM_seen
      (I := fun seen b => b.space.IsLaidOut (part (seen.map Prod.fst) [] [] [] []))
      (fun seen p b b' _ hb h => ?_) h₁ h₀
    · rwa [List.zipIdx_map_fst] at hseen
    · rw [List.map_append]
      exact Builder.isLaidOut_addImport hb (Except.mapError_eq_ok_iff.mp h)
  have hl₂ : b₂.space.IsLaidOut (part m.imports m.functions [] [] []) :=
    Except.foldlM_seen (I := fun seen b => b.space.IsLaidOut (part m.imports seen [] [] []))
      (fun _ _ _ _ _ hb h => Builder.isLaidOut_addFunction hb h) h₂ hl₁
  have hl₃ : b₃.space.IsLaidOut (part m.imports m.functions m.globals [] []) :=
    Except.foldlM_seen (I := fun seen b => b.space.IsLaidOut (part m.imports m.functions seen [] []))
      (fun _ _ _ _ _ hb h => Builder.isLaidOut_addGlobal hb h) h₃ hl₂
  have hl₄ : b₄.space.IsLaidOut (part m.imports m.functions m.globals m.memories []) :=
    Except.foldlM_seen
      (I := fun seen b => b.space.IsLaidOut (part m.imports m.functions m.globals seen []))
      (fun _ _ _ _ _ hb h => Builder.isLaidOut_addMemory hb h) h₄ hl₃
  have hl₅ : b₅.space.IsLaidOut m :=
    Except.foldlM_seen
      (I := fun seen b => b.space.IsLaidOut (part m.imports m.functions m.globals m.memories seen))
      (fun _ _ _ _ _ hb h => Builder.isLaidOut_addTable hb h) h₅ hl₄
  have hbuild : b₆.space = b₅.space := by
    rw [Builder.build] at h₆
    split at h₆
    · cases h₆
    · rw [← Except.ok.inj h₆]
  rw [← Except.ok.inj h, hbuild]
  exact hl₅

end IndexSpace

/-! ## Locations -/

namespace Namespace

variable {α β : Type} {n : Namespace α} {i : UInt32}

/-- An index below the number of imports is the position of an import. -/
theorem get?_imported {a : α} (h : n.imported[i.toNat]? = some a) :
    n.get? i = some (⟨.imported, i⟩, a) := by
  have hlt : i.toNat < n.imported.length := (List.getElem?_eq_some_iff.mp h).1
  rw [get?, locate, if_pos hlt, List.getElem?_append_left hlt, h]
  rfl

/-- Positions of definitions that have an index are counted in words. -/
theorem toNat_position {j : ℕ} (hi : i.toNat = n.imported.length + j) :
    (UInt32.ofNat j).toNat = j :=
  UInt32.toNat_ofNat_of_lt' (Nat.lt_of_le_of_lt (hi ▸ Nat.le_add_left j _) i.toNat_lt)

/-- An index from the number of imports on is, less that number, the position of a definition. -/
theorem get?_defined {j : ℕ} {a : α} (hi : i.toNat = n.imported.length + j)
    (h : n.defined[j]? = some a) : n.get? i = some (⟨.defined, UInt32.ofNat j⟩, a) := by
  have hge : ¬i.toNat < n.imported.length := by omega
  have hword : i = UInt32.ofNat n.imported.length + UInt32.ofNat j := by
    rw [← UInt32.ofNat_add, ← hi, UInt32.ofNat_toNat]
  have hposition : i - UInt32.ofNat n.imported.length = UInt32.ofNat j := by
    rw [hword, UInt32.add_comm, UInt32.add_sub_cancel]
  rw [get?, locate, if_neg hge, hposition, List.getElem?_append_right (Nat.le_of_not_lt hge), hi,
    Nat.add_sub_cancel_left, h]
  rfl

/-- A number below the size of a namespace is an index of it, even where it is not a word. -/
theorem exists_get? {k : ℕ} (h : k < n.size) : ∃ found, n.get? (UInt32.ofNat k) = some found := by
  have hlt : (UInt32.ofNat k).toNat < (n.imported ++ n.defined).length := by
    rw [UInt32.toNat_ofNat', List.length_append]
    exact Nat.lt_of_le_of_lt (Nat.mod_le k _) h
  refine ⟨(n.locate (UInt32.ofNat k), (n.imported ++ n.defined)[(UInt32.ofNat k).toNat]), ?_⟩
  rw [get?, List.getElem?_eq_getElem hlt]
  rfl

section Lookup

variable {kind : ExternKind} {desc : α → ImportDesc} {imports : List Import} {δ : Type}
  {defs : List δ} {entry : δ → α}

/-- An index names an import of its kind or a definition. -/
theorem ListsImports.cases_of_get? (h : n.ListsImports kind desc imports)
    (hdefs : n.defined = defs.map entry) {found : Location × α} (hget : n.get? i = some found) :
    (∃ im, (importsOf kind imports)[i.toNat]? = some im) ∨
      ∃ j d, i.toNat = (importsOf kind imports).length + j ∧ defs[j]? = some d := by
  obtain ⟨a, ha, -⟩ := Option.map_eq_some_iff.mp hget
  rcases Nat.lt_or_ge i.toNat (importsOf kind imports).length with hlt | hge
  · exact .inl ⟨_, List.getElem?_eq_getElem hlt⟩
  · obtain ⟨j, hj⟩ := Nat.exists_eq_add_of_le hge
    rw [List.getElem?_append_right (h.length_eq ▸ hge), ← h.length_eq, hj, Nat.add_sub_cancel_left,
      hdefs, List.getElem?_map] at ha
    obtain ⟨d, hd, -⟩ := Option.map_eq_some_iff.mp ha
    exact .inr ⟨j, d, hj, hd⟩

/-- **The location of an import leads to what the import is bound to**, in a namespace whose imported entries are the bindings
of the imports. -/
theorem ListsImports.resolve_imported {R : Import → β → Prop} (h : n.ListsImports kind desc imports)
    (n' : Namespace β) (hR : List.Forall₂ R (importsOf kind imports) n'.imported) {im : Import}
    (him : (importsOf kind imports)[i.toNat]? = some im) :
    ∃ a b, n.get? i = some (⟨.imported, i⟩, a) ∧ im.desc = desc a ∧
      n'.at? ⟨.imported, i⟩ = some b ∧ R im b := by
  obtain ⟨a, ha, hdesc⟩ := h.exists_of_getElem? him
  obtain ⟨b, hb, hrel⟩ := exists_getElem?_of_forall₂ hR.flip him
  exact ⟨a, b, get?_imported ha, hdesc, hb, hrel⟩

/-- **The location of a definition leads to what was made of it**, in a namespace whose defined entries are made of the
definitions. -/
theorem ListsImports.resolve_defined {R : δ → β → Prop} (h : n.ListsImports kind desc imports)
    (hdefs : n.defined = defs.map entry) (n' : Namespace β) (hR : List.Forall₂ R defs n'.defined)
    {j : ℕ} {d : δ} (hi : i.toNat = (importsOf kind imports).length + j) (hd : defs[j]? = some d) :
    ∃ b, n.get? i = some (⟨.defined, UInt32.ofNat j⟩, entry d) ∧
      n'.at? ⟨.defined, UInt32.ofNat j⟩ = some b ∧ n'.defined[j]? = some b ∧ R d b := by
  rw [h.length_eq] at hi
  obtain ⟨b, hb, hrel⟩ := exists_getElem?_of_forall₂ hR.flip hd
  have hentry : n.defined[j]? = some (entry d) := by rw [hdefs, List.getElem?_map, hd]; rfl
  have hat : n'.at? ⟨.defined, UInt32.ofNat j⟩ = n'.defined[j]? := by rw [at?, toNat_position hi]
  exact ⟨b, get?_defined hi hentry, hat.trans hb, hb, hrel⟩

end Lookup

end Namespace

end FlatWasm
