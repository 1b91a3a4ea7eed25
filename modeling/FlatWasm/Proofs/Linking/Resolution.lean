import Mathlib
import FlatWasm.Linking.Imports
import FlatWasm.Proofs.Failures
import FlatWasm.Proofs.IndexSpace.Layout
import FlatWasm.Proofs.Linking.Evolution

/-!
# What imports are bound to

Imports are bound one by one, whatever their kinds, and each binding joins those of its kind.  In the end the bindings of a
kind correspond to the imports of that kind, position by position, and each is what the name of its import is bound to and
serves the declaration (`Imports.resolves_of_resolve`).

Where every import is described and every bound store exists, the only failures are those that the names and types of
bindings give rise to (`Imports.failsOnly_resolve`).
-/

namespace FlatWasm

/-- The two-level name of an import. -/
def Import.fullName (im : Import) : ImportName :=
  ⟨im.module, im.name⟩

/-! ## Stores that serve a declaration -/

/-- A store is as large as declared, and cannot grow beyond what is declared. -/
structure Linear.Serves (s : Linear) (declared : Limits) : Prop where
  size : ∃ size, s.size = .ok size ∧ declared.min ≤ size
  max : ∀ max, declared.max = some max → s.max ≤ max

theorem Linear.serves_of_checkStore {s : Linear} {declared : Limits}
    (h : checkStore s declared = .ok ()) : s.Serves declared := by
  obtain ⟨size, hsize, h⟩ := Except.bind_eq_ok_iff.mp h
  dsimp only at h
  split at h
  · cases h
  · next hmin =>
    refine ⟨⟨size, Except.mapError_eq_ok_iff.mp hsize, UInt32.not_lt.mp hmin⟩, fun max hmax => ?_⟩
    rw [hmax] at h
    dsimp only at h
    split at h
    · cases h
    · next hle => exact UInt32.not_lt.mp hle

theorem failsOnly_checkStore {s : Linear} (hunit : s.unit ≠ 0) (declared : Limits) :
    FailsOnly (fun e => ErrorClass.importMismatch ∈ e.classes) (checkStore s declared) := by
  have hsize : s.size = .ok (UInt32.ofNat (s.length / s.unit.toNat)) := if_neg hunit
  refine (failsOnly_orDefect hsize).bind fun size _ => ?_
  dsimp only
  by_cases hmin : size < declared.min
  · rw [if_pos hmin]
    show FailsOnly _ (refuse (BindingError.size size declared.min))
    exact failsOnly_refuse (List.mem_singleton_self _)
  · rw [if_neg hmin]
    cases declared.max with
    | none => exact failsOnly_ok ()
    | some max =>
      dsimp only
      split
      · exact failsOnly_refuse (List.mem_singleton_self _)
      · exact failsOnly_ok ()

theorem bound_eq_ok_iff {α : Type} {x : Option α} {a : α} : bound x = .ok a ↔ x = some a := by
  cases x <;> simp [bound, refuse]

namespace Imports

variable {b : Imports} {space : IndexSpace} {pool : Pool}

/-! ## Bindings -/

/-- The name of a function import is bound to a host function of the declared type. -/
structure BindsFunction (b : Imports) (space : IndexSpace) (im : Import) (type : FuncType) :
    Prop where
  name : b.functions.find? im.fullName = some type
  declared : ∃ typeIndex, im.desc = .func typeIndex ∧ space.type typeIndex = .ok (some type)

/-- The name of a memory import is bound to a memory that serves the declared limits. -/
structure BindsMemory (b : Imports) (pool : Pool) (im : Import) (a : Address) : Prop where
  name : b.memories.find? im.fullName = some a
  declared : ∃ memory limits, pool.memories[a]? = some memory ∧ im.desc = .memory (some limits) ∧
    memory.store.Serves limits

/-- The name of a table import is bound to a table that serves the declared limits. -/
structure BindsTable (b : Imports) (pool : Pool) (im : Import) (a : Address) : Prop where
  name : b.tables.find? im.fullName = some a
  declared : ∃ table limits, pool.tables[a]? = some table ∧ im.desc = .table (some limits) ∧
    table.store.Serves limits

/-- The name of a global import is bound to a global of the declared type that has a value. -/
structure BindsGlobal (b : Imports) (pool : Pool) (im : Import) (a : Address) : Prop where
  name : b.globals.find? im.fullName = some a
  declared : ∃ cell, pool.globals[a]? = some cell ∧ im.desc = .global (some cell.type) ∧
    cell.store.length ≠ 0

/-- Each import is bound, at its position among the imports of its kind. -/
structure Resolves (b : Imports) (space : IndexSpace) (pool : Pool) (imports : List Import)
    (r : Bound) : Prop where
  functions : List.Forall₂ (b.BindsFunction space) (importsOf .func imports) r.functions
  memories : List.Forall₂ (b.BindsMemory pool) (importsOf .memory imports) r.memories
  tables : List.Forall₂ (b.BindsTable pool) (importsOf .table imports) r.tables
  globals : List.Forall₂ (b.BindsGlobal pool) (importsOf .global imports) r.globals

section Kinds

variable {α : Type} {R : Import → α → Prop} {kind : ExternKind} {seen : List Import} {im : Import}
  {xs : List α} {x : α}

theorem forall₂_concat (h : List.Forall₂ R (importsOf kind seen) xs)
    (hk : im.desc.kind = kind) (hx : R im x) :
    List.Forall₂ R (importsOf kind (seen ++ [im])) (xs ++ [x]) := by
  rw [importsOf_concat hk]
  exact List.rel_append h (.cons hx .nil)

theorem forall₂_skip (h : List.Forall₂ R (importsOf kind seen) xs) {kind' : ExternKind}
    (hk : im.desc.kind = kind') (hne : kind' ≠ kind) :
    List.Forall₂ R (importsOf kind (seen ++ [im])) xs := by
  rwa [importsOf_concat_of_ne (hk.trans_ne hne)]

end Kinds

/-- One more import is bound, and joins the bindings of its kind. -/
theorem resolves_of_resolveOne {seen : List Import} {im : Import} {r r' : Bound}
    (hr : b.Resolves space pool seen r) (h : b.resolveOne space pool im r = .ok r') :
    b.Resolves space pool (seen ++ [im]) r' := by
  rw [resolveOne] at h
  cases hd : im.desc with
  | func typeIndex =>
    have hk : im.desc.kind = .func := congrArg ImportDesc.kind hd
    rw [hd] at h
    obtain ⟨actual, ha, h₁⟩ := Except.bind_eq_ok_iff.mp h
    obtain ⟨o, ho, h₂⟩ := Except.bind_eq_ok_iff.mp h₁
    obtain ⟨declared, hdeclared, h₃⟩ := Except.bind_eq_ok_iff.mp h₂
    dsimp only at h₃
    split at h₃
    · cases h₃
    · next heq =>
      obtain rfl := present_eq_ok_iff.mp hdeclared
      obtain rfl := Decidable.of_not_not heq
      cases h₃
      have hbinds : b.BindsFunction space im declared :=
        ⟨bound_eq_ok_iff.mp ha, typeIndex, hd, orRefuse_eq_ok_iff.mp ho⟩
      exact ⟨forall₂_concat hr.functions hk hbinds, forall₂_skip hr.memories hk (by decide),
        forall₂_skip hr.tables hk (by decide), forall₂_skip hr.globals hk (by decide)⟩
  | memory limits =>
    have hk : im.desc.kind = .memory := congrArg ImportDesc.kind hd
    rw [hd] at h
    obtain ⟨a, ha, h₁⟩ := Except.bind_eq_ok_iff.mp h
    obtain ⟨memory, hmemory, h₂⟩ := Except.bind_eq_ok_iff.mp h₁
    obtain ⟨declared, hdeclared, h₃⟩ := Except.bind_eq_ok_iff.mp h₂
    obtain ⟨⟨⟩, hcheck, h₄⟩ := Except.bind_eq_ok_iff.mp h₃
    obtain rfl := present_eq_ok_iff.mp hdeclared
    cases h₄
    have hbinds : b.BindsMemory pool im a :=
      ⟨bound_eq_ok_iff.mp ha, memory, declared, present_eq_ok_iff.mp hmemory, hd,
        Linear.serves_of_checkStore hcheck⟩
    exact ⟨forall₂_skip hr.functions hk (by decide), forall₂_concat hr.memories hk hbinds,
      forall₂_skip hr.tables hk (by decide), forall₂_skip hr.globals hk (by decide)⟩
  | table limits =>
    have hk : im.desc.kind = .table := congrArg ImportDesc.kind hd
    rw [hd] at h
    obtain ⟨a, ha, h₁⟩ := Except.bind_eq_ok_iff.mp h
    obtain ⟨table, htable, h₂⟩ := Except.bind_eq_ok_iff.mp h₁
    obtain ⟨declared, hdeclared, h₃⟩ := Except.bind_eq_ok_iff.mp h₂
    obtain ⟨⟨⟩, hcheck, h₄⟩ := Except.bind_eq_ok_iff.mp h₃
    obtain rfl := present_eq_ok_iff.mp hdeclared
    cases h₄
    have hbinds : b.BindsTable pool im a :=
      ⟨bound_eq_ok_iff.mp ha, table, declared, present_eq_ok_iff.mp htable, hd,
        Linear.serves_of_checkStore hcheck⟩
    exact ⟨forall₂_skip hr.functions hk (by decide), forall₂_skip hr.memories hk (by decide),
      forall₂_concat hr.tables hk hbinds, forall₂_skip hr.globals hk (by decide)⟩
  | global type =>
    have hk : im.desc.kind = .global := congrArg ImportDesc.kind hd
    rw [hd] at h
    obtain ⟨a, ha, h₁⟩ := Except.bind_eq_ok_iff.mp h
    obtain ⟨cell, hcell, h₂⟩ := Except.bind_eq_ok_iff.mp h₁
    obtain ⟨declared, hdeclared, h₃⟩ := Except.bind_eq_ok_iff.mp h₂
    dsimp only at h₃
    split at h₃
    · cases h₃
    · next heq =>
      split at h₃
      · cases h₃
      · next hlength =>
        obtain rfl := present_eq_ok_iff.mp hdeclared
        obtain rfl := Decidable.of_not_not heq
        cases h₃
        have hbinds : b.BindsGlobal pool im a :=
          ⟨bound_eq_ok_iff.mp ha, cell, present_eq_ok_iff.mp hcell, hd, hlength⟩
        exact ⟨forall₂_skip hr.functions hk (by decide), forall₂_skip hr.memories hk (by decide),
          forall₂_skip hr.tables hk (by decide), forall₂_concat hr.globals hk hbinds⟩
  | other kind =>
    rw [hd] at h
    cases h

/-- **Each import is bound to what its name is bound to**, and what it is bound to serves it. -/
theorem resolves_of_resolve {imports : List Import} {r : Bound}
    (h : b.resolve space pool imports = .ok r) : b.Resolves space pool imports r := by
  rw [resolve] at h
  have hnone : b.Resolves space pool [] {} := ⟨.nil, .nil, .nil, .nil⟩
  exact Except.foldlM_seen (I := fun seen r => b.Resolves space pool seen r)
    (fun _ _ _ _ _ hr h => resolves_of_resolveOne hr (Except.mapError_eq_ok_iff.mp h)) h hnone

/-! ## Failures -/

/-- What an import asks for is there. -/
structure Describes (space : IndexSpace) (im : Import) : Prop where
  func : ∀ typeIndex, im.desc = .func typeIndex → ∃ type, space.type typeIndex = .ok (some type)
  memory : ∀ o, im.desc = .memory o → ∃ limits, o = some limits
  table : ∀ o, im.desc = .table o → ∃ limits, o = some limits
  global : ∀ o, im.desc = .global o → ∃ type, o = some type
  kind : ∀ kind, im.desc ≠ .other kind

/-- Every address that a name is bound to is the address of a store. -/
structure Within (b : Imports) (pool : Pool) : Prop where
  memories : ∀ name a, b.memories.find? name = some a → a < pool.memories.size
  tables : ∀ name a, b.tables.find? name = some a → a < pool.tables.size
  globals : ∀ name a, b.globals.find? name = some a → a < pool.globals.size

/-- A binding is missing or does not match its import. -/
def IsUnbound (classes : List ErrorClass) : Prop :=
  .importMissing ∈ classes ∨ .importMismatch ∈ classes

theorem failsOnly_bound {α : Type} (x : Option α) :
    FailsOnly (fun e => IsUnbound e.classes) (bound x) := by
  cases x with
  | none => exact failsOnly_refuse (.inl (List.mem_singleton_self _))
  | some a => exact failsOnly_ok a

theorem failsOnly_resolveOne (hb : b.Within pool) (hp : pool.InBounds) {im : Import}
    (him : Describes space im) (r : Bound) :
    FailsOnly (fun e => IsUnbound e.classes) (b.resolveOne space pool im r) := by
  have hmismatch : ∀ {e : BindingError}, e.classes = [.importMismatch] → IsUnbound e.classes :=
    fun h => .inr (h ▸ List.mem_singleton_self _)
  rw [resolveOne]
  cases hd : im.desc with
  | func typeIndex =>
    obtain ⟨declared, htype⟩ := him.func typeIndex hd
    refine (failsOnly_bound _).bind fun actual _ => ?_
    rw [htype]
    refine FailsOnly.bind (failsOnly_ok _) fun o ho => ?_
    refine FailsOnly.bind (failsOnly_present (Except.ok.inj ho).symm) fun type _ => ?_
    dsimp only
    split
    · exact FailsOnly.bind (failsOnly_refuse (hmismatch rfl)) fun _ _ => failsOnly_ok _
    · exact failsOnly_ok _
  | memory limits =>
    obtain ⟨declared, rfl⟩ := him.memory limits hd
    refine (failsOnly_bound _).bind fun a ha => ?_
    have hlt := hb.memories _ a (bound_eq_ok_iff.mp ha)
    refine (failsOnly_present (Array.getElem?_eq_getElem hlt)).bind fun memory hm => ?_
    have hunit := (hp.memories memory (Array.mem_of_getElem? (present_eq_ok_iff.mp hm))).1
    refine (failsOnly_present rfl).bind fun limits' _ => ?_
    refine FailsOnly.bind ?_ fun _ _ => failsOnly_ok _
    exact (failsOnly_checkStore (hunit ▸ by decide) limits').mono fun _ h => .inr h
  | table limits =>
    obtain ⟨declared, rfl⟩ := him.table limits hd
    refine (failsOnly_bound _).bind fun a ha => ?_
    have hlt := hb.tables _ a (bound_eq_ok_iff.mp ha)
    refine (failsOnly_present (Array.getElem?_eq_getElem hlt)).bind fun table ht => ?_
    have hunit := (hp.tables table (Array.mem_of_getElem? (present_eq_ok_iff.mp ht))).1
    refine (failsOnly_present rfl).bind fun limits' _ => ?_
    refine FailsOnly.bind ?_ fun _ _ => failsOnly_ok _
    exact (failsOnly_checkStore (hunit ▸ by decide) limits').mono fun _ h => .inr h
  | global type =>
    obtain ⟨declared, rfl⟩ := him.global type hd
    refine (failsOnly_bound _).bind fun a ha => ?_
    have hlt := hb.globals _ a (bound_eq_ok_iff.mp ha)
    refine (failsOnly_present (Array.getElem?_eq_getElem hlt)).bind fun cell _ => ?_
    refine (failsOnly_present rfl).bind fun type' _ => ?_
    dsimp only
    split
    · exact FailsOnly.bind (failsOnly_refuse (hmismatch rfl)) fun _ h => by cases h
    split
    · exact FailsOnly.bind (failsOnly_refuse (hmismatch rfl)) fun _ _ => failsOnly_ok _
    · exact failsOnly_ok _
  | other kind => exact absurd hd (him.kind kind)

/-- **Imports that are described fail to be bound only by names and types.** -/
theorem failsOnly_resolve (hb : b.Within pool) (hp : pool.InBounds) {imports : List Import}
    (h : ∀ im ∈ imports, Describes space im) :
    FailsOnly (fun e => IsUnbound e.classes) (b.resolve space pool imports) := by
  refine FailsOnly.foldlM (fun im him r => ?_) _
  exact FailsOnly.mapError (P := fun e : Error => IsUnbound e.classes)
    (failsOnly_resolveOne hb hp (h im him) r)

end Imports

end FlatWasm
