import Mathlib
import FlatWasm.Proofs.IndexSpace.Layout

/-!
# Index spaces through any sequence of calls

`Module.indexSpace` adds the imports of a module before its definitions and stops at the first call that fails.  A builder can
also be driven in any other order, by a caller who goes on after a failure.  This file says what the index spaces are then:
in each namespace the entries of the calls that succeeded, in their order, with every import before every definition
(`calls_keep_imports_first`).

## What is followed

A `Session` is a builder with the calls that have succeeded so far.  An entry is told apart by its origin and by what an import
of it would say, so that one function reads the entries of all four kinds off the calls (`entriesOf`).  What a successful call
does is told once, by `records_perform`: the namespaces record the calls that succeeded, before it and after it.  An import of a
kind of which nothing is defined goes to the end of the list for the same reason that a definition does, which is why the order
of the calls and "imports first" are one equation (`Namespace.Lists`).
-/

namespace FlatWasm

open IndexSpace (Kind)

namespace IndexSpace.Builder

/-! ## Calls -/

/-- What a builder can be asked to do. -/
inductive Call where
  | addImport (im : Import)
  | addFunction (typeIndex : UInt32)
  | addGlobal (type : Option GlobalType)
  | addMemory (limits : Option Limits)
  | addTable (limits : Option Limits)
  | build
deriving DecidableEq, Repr

def perform (b : Builder) : Call → Except Error Builder
  | .addImport im => b.addImport im
  | .addFunction typeIndex => b.addFunction typeIndex
  | .addGlobal type => b.addGlobal type
  | .addMemory limits => b.addMemory limits
  | .addTable limits => b.addTable limits
  | .build => b.build

/-- The entry that a call asks for: its origin, and what an import of it says. -/
def Call.adds? : Call → Option (Origin × ImportDesc)
  | .addImport im => some (.imported, im.desc)
  | .addFunction typeIndex => some (.defined, .func typeIndex)
  | .addGlobal type => some (.defined, .global type)
  | .addMemory limits => some (.defined, .memory limits)
  | .addTable limits => some (.defined, .table limits)
  | .build => none

/-- The kind of that entry. -/
def Call.kind? (c : Call) : Option ExternKind :=
  c.adds?.map fun e => e.2.kind

/-- The entries of a kind that some calls ask for, in order. -/
def entriesOf (kind : ExternKind) (calls : List Call) : List (Origin × ImportDesc) :=
  (calls.filterMap Call.adds?).filter fun e => e.2.kind = kind

/-- How many of some entries are imports. -/
def importCount (entries : List (Origin × ImportDesc)) : ℕ :=
  entries.countP fun e => e.1 = .imported

/-- What stands against a call, after those that succeeded, as long as the index spaces are not sealed. -/
def Call.IsRefused (types : List (Option FuncType)) (earlier : List Call) : Call → Prop
  | .addImport im =>
    (∃ d, (Origin.defined, d) ∈ entriesOf im.desc.kind earlier) ∨
      (∃ typeIndex, im.desc = .func typeIndex ∧ types.length ≤ typeIndex.toNat) ∨
      ∃ kind, im.desc = .other kind
  | .addFunction typeIndex => types.length ≤ typeIndex.toNat
  | _ => False

/-- A builder, and the calls that have succeeded on it. -/
structure Session where
  builder : Builder
  granted : List Call := []

/-- The caller goes on with the same builder after a call that fails. -/
def Session.next (s : Session) (c : Call) : Session :=
  match s.builder.perform c with
  | .ok b => ⟨b, s.granted ++ [c]⟩
  | .error _ => s

/-- What becomes of empty index spaces over a type section. -/
def session (types : List (Option FuncType)) (calls : List Call) : Session :=
  calls.foldl Session.next { builder := .ofTypes types }

end IndexSpace.Builder

open IndexSpace.Builder

theorem IndexSpace.Builder.entriesOf_concat (kind : ExternKind) (calls : List Call) (c : Call) :
    entriesOf kind (calls ++ [c]) =
      entriesOf kind calls ++ (c.adds?.toList).filter fun e => e.2.kind = kind := by
  rw [entriesOf, List.filterMap_append, List.filter_append]
  cases h : c.adds? <;> simp [entriesOf, h]

/-! ## What a namespace records -/

namespace Namespace

variable {α β : Type} {n : Namespace α} {kind : ExternKind} {desc : α → ImportDesc} {calls : List Call}
  {c : Call} {a : α}

/-- The entries of a namespace, its imports before its definitions, are those that the calls ask for. -/
def Lists (n : Namespace α) (kind : ExternKind) (desc : α → ImportDesc) (calls : List Call) : Prop :=
  entriesOf kind calls =
    n.imported.map (fun a => (.imported, desc a)) ++ n.defined.map fun a => (.defined, desc a)

/-- As long as nothing is defined, an import goes to the end of the list. -/
theorem Lists.addImport (h : n.Lists kind desc calls) (hempty : n.defined = [])
    (hc : c.adds? = some (.imported, desc a)) (hk : (desc a).kind = kind) :
    (n.addImport a).Lists kind desc (calls ++ [c]) := by
  rw [Lists] at h ⊢
  rw [entriesOf_concat, h, hc]
  simp [Namespace.addImport, hempty, hk]

theorem Lists.define (h : n.Lists kind desc calls) (hc : c.adds? = some (.defined, desc a))
    (hk : (desc a).kind = kind) : (n.define a).Lists kind desc (calls ++ [c]) := by
  rw [Lists] at h ⊢
  rw [entriesOf_concat, h, hc]
  simp [Namespace.define, hk]

/-- A call for an entry of another kind, or for none, leaves the namespace alone. -/
theorem Lists.skip (h : n.Lists kind desc calls) {kind' : Option ExternKind} (hc : c.kind? = kind')
    (hne : kind' ≠ some kind) : n.Lists kind desc (calls ++ [c]) := by
  have hnone : (c.adds?.toList.filter fun e => e.2.kind = kind) = [] := by
    refine List.filter_eq_nil_iff.mpr fun e he => ?_
    have hkind : c.kind? = some e.2.kind := congrArg _ (Option.mem_toList.mp he)
    exact fun hk => hne (hc.symm.trans (hkind.trans (congrArg some (of_decide_eq_true hk))))
  rw [Lists, entriesOf_concat, hnone, List.append_nil]
  exact h

theorem Lists.defined_eq_nil_iff (h : n.Lists kind desc calls) :
    n.defined = [] ↔ ¬∃ d, (Origin.defined, d) ∈ entriesOf kind calls := by
  rw [h]
  constructor
  · intro hempty
    simp [hempty]
  · intro hnone
    refine List.eq_nil_iff_forall_not_mem.mpr fun a ha => hnone ⟨desc a, ?_⟩
    exact List.mem_append_right _ (List.mem_map_of_mem ha)

theorem Lists.importCount_eq (h : n.Lists kind desc calls) :
    importCount (entriesOf kind calls) = n.imported.length := by
  rw [importCount, h, List.countP_append, List.countP_map, List.countP_map]
  simp [Function.comp_def]

theorem Lists.length_eq (h : n.Lists kind desc calls) : (entriesOf kind calls).length = n.size := by
  rw [h, List.length_append, List.length_map, List.length_map, size]

end Namespace

/-- **What a look-up has to answer**, given the entries in index order: the location tells imports from definitions and counts
each of them from zero, and `read` makes the answer of what the entry is known by. -/
structure IndexSpace.Resolves {α β : Type} (entries : List (Origin × ImportDesc)) (kind : Kind)
    (desc : α → ImportDesc) (read : α → Option β)
    (lookup : UInt32 → Except Error (Location × β)) : Prop where
  imported : ∀ i : UInt32, i.toNat < importCount entries →
    ∃ a b, entries[i.toNat]? = some (.imported, desc a) ∧ read a = some b ∧
      lookup i = .ok (⟨.imported, i⟩, b)
  defined : ∀ i : UInt32, importCount entries ≤ i.toNat → i.toNat < entries.length →
    ∃ a b, entries[i.toNat]? = some (.defined, desc a) ∧ read a = some b ∧
      lookup i = .ok (⟨.defined, UInt32.ofNat (i.toNat - importCount entries)⟩, b)
  outOfRange : ∀ i : UInt32, entries.length ≤ i.toNat → lookup i = .error (.outOfRange kind i)
  distinct : ∀ (i j : UInt32) (loc : Location) (a b : β),
    lookup i = .ok (loc, a) → lookup j = .ok (loc, b) → i = j

namespace Namespace

variable {α β : Type} {n : Namespace α} {kind : ExternKind} {desc : α → ImportDesc} {calls : List Call}

/-- Two indices of a namespace are not at one location. -/
theorem eq_of_get?_eq {i j : UInt32} {loc : Location} {a b : α} (hi : n.get? i = some (loc, a))
    (hj : n.get? j = some (loc, b)) : i = j := by
  obtain ⟨_, -, hi⟩ := Option.map_eq_some_iff.mp hi
  obtain ⟨_, -, hj⟩ := Option.map_eq_some_iff.mp hj
  have hloc : n.locate i = n.locate j := (Prod.mk.inj hi).1.trans (Prod.mk.inj hj).1.symm
  rw [locate, locate] at hloc
  split at hloc <;> split at hloc
  · exact congrArg Location.position hloc
  · cases congrArg Location.origin hloc
  · cases congrArg Location.origin hloc
  · exact (UInt32.sub_left_inj _).mp (congrArg Location.position hloc)

/-- **A look-up that reads the entry of its namespace resolves the indices of what the namespace records.** -/
theorem Lists.resolves (h : n.Lists kind desc calls) {k : Kind} {read : α → Option β}
    {lookup : UInt32 → Except IndexSpace.Error (Location × β)}
    (hread : ∀ a ∈ n.imported ++ n.defined, ∃ b, read a = some b)
    (hsome : ∀ i loc a b, n.get? i = some (loc, a) → read a = some b → lookup i = .ok (loc, b))
    (hnone : ∀ i, n.get? i = none → lookup i = .error (.outOfRange k i)) :
    IndexSpace.Resolves (entriesOf kind calls) k desc read lookup := by
  have hget : ∀ i loc b, lookup i = .ok (loc, b) → ∃ a, n.get? i = some (loc, a) := by
    intro i loc b hi
    cases hg : n.get? i with
    | none =>
      rw [hnone i hg] at hi
      cases hi
    | some found =>
      obtain ⟨loc', a⟩ := found
      obtain ⟨x, hx, hfound⟩ := Option.map_eq_some_iff.mp hg
      obtain rfl : x = a := (Prod.mk.inj hfound).2
      obtain ⟨b', hb'⟩ := hread x (List.mem_of_getElem? hx)
      rw [hsome i loc' x b' hg hb'] at hi
      cases hi
      exact ⟨x, rfl⟩
  refine ⟨?_, ?_, ?_, ?_⟩
  · intro i hi
    rw [h.importCount_eq] at hi
    have ha := List.getElem?_eq_getElem hi
    obtain ⟨b, hb⟩ := hread _ (List.mem_append_left _ (List.getElem_mem hi))
    refine ⟨_, b, ?_, hb, hsome i _ _ b (get?_imported ha) hb⟩
    rw [h, List.getElem?_append_left (by rwa [List.length_map]), List.getElem?_map, ha]
    rfl
  · intro i hge hlt
    rw [h.importCount_eq] at hge ⊢
    rw [h.length_eq, size] at hlt
    obtain ⟨j, hj⟩ := Nat.exists_eq_add_of_le hge
    have hjlt : j < n.defined.length := by omega
    have ha := List.getElem?_eq_getElem hjlt
    obtain ⟨b, hb⟩ := hread _ (List.mem_append_right _ (List.getElem_mem hjlt))
    refine ⟨_, b, ?_, hb, ?_⟩
    · rw [h, List.getElem?_append_right (by rwa [List.length_map]), List.length_map, hj,
        Nat.add_sub_cancel_left, List.getElem?_map, ha]
      rfl
    · rw [hj, Nat.add_sub_cancel_left]
      exact hsome i _ _ b (get?_defined hj ha) hb
  · intro i hle
    rw [h.length_eq, size, ← List.length_append] at hle
    exact hnone i (by rw [get?, List.getElem?_eq_none hle]; rfl)
  · intro i j loc a b hi hj
    obtain ⟨_, hi⟩ := hget i loc a hi
    obtain ⟨_, hj⟩ := hget j loc b hj
    exact eq_of_get?_eq hi hj

end Namespace

namespace IndexSpace

/-! ## What the index spaces record -/

/-- Each namespace records the entries of its kind, and the functions among them are of types that exist. -/
structure Records (types : List (Option FuncType)) (space : IndexSpace) (calls : List Call) : Prop where
  types : space.types = types
  functions : space.functions.Lists .func .func calls
  globals : space.globals.Lists .global .global calls
  memories : space.memories.Lists .memory .memory calls
  tables : space.tables.Lists .table .table calls
  typed : ∀ t ∈ space.functions.imported ++ space.functions.defined, t.toNat < space.types.length

namespace Builder

variable {types : List (Option FuncType)} {b b' : Builder} {calls : List Call} {c : Call}

theorem importFirst_eq_ok_iff {α : Type} {n : Namespace α} {kind : Kind} {im : Import} {u : Unit} :
    importFirst n kind im = .ok u ↔ n.defined = [] := by
  rw [importFirst]
  split
  · next h => exact iff_of_true rfl (List.isEmpty_iff.mp h)
  · next h => exact iff_of_false (by rintro ⟨⟩) fun hempty => h (List.isEmpty_iff.mpr hempty)

theorem records_addImport {im : Import} (hb : Records types b.space calls)
    (h : b.addImport im = .ok b') : Records types b'.space (calls ++ [.addImport im]) := by
  have hchange := update_eq_ok h
  have hentry : (Call.addImport im).adds? = some (.imported, im.desc) := rfl
  cases hd : im.desc with
  | func typeIndex =>
    rw [hd] at hchange hentry
    have hk : (Call.addImport im).kind? = some .func := congrArg (some ∘ ImportDesc.kind) hd
    obtain ⟨_, hfirst, h'⟩ := Except.bind_eq_ok_iff.mp hchange
    dsimp only at h'
    split at h'
    · cases h'
    · next hlt =>
      rw [← Except.ok.inj h']
      have hempty := importFirst_eq_ok_iff.mp hfirst
      refine ⟨hb.types, hb.functions.addImport hempty hentry rfl, hb.globals.skip hk (by decide),
        hb.memories.skip hk (by decide), hb.tables.skip hk (by decide), ?_⟩
      have htyped := hb.typed
      rw [hempty, List.append_nil] at htyped
      show ∀ t ∈ b.space.functions.imported ++ [typeIndex] ++ b.space.functions.defined, _
      rw [hempty, List.append_nil]
      exact List.forall_mem_append.mpr ⟨htyped, List.forall_mem_singleton.mpr (Nat.lt_of_not_le hlt)⟩
  | global type =>
    rw [hd] at hchange hentry
    have hk : (Call.addImport im).kind? = some .global := congrArg (some ∘ ImportDesc.kind) hd
    obtain ⟨_, hfirst, h'⟩ := Except.bind_eq_ok_iff.mp hchange
    rw [← Except.ok.inj h']
    exact ⟨hb.types, hb.functions.skip hk (by decide),
      hb.globals.addImport (importFirst_eq_ok_iff.mp hfirst) hentry rfl,
      hb.memories.skip hk (by decide), hb.tables.skip hk (by decide), hb.typed⟩
  | memory limits =>
    rw [hd] at hchange hentry
    have hk : (Call.addImport im).kind? = some .memory := congrArg (some ∘ ImportDesc.kind) hd
    obtain ⟨_, hfirst, h'⟩ := Except.bind_eq_ok_iff.mp hchange
    rw [← Except.ok.inj h']
    exact ⟨hb.types, hb.functions.skip hk (by decide), hb.globals.skip hk (by decide),
      hb.memories.addImport (importFirst_eq_ok_iff.mp hfirst) hentry rfl,
      hb.tables.skip hk (by decide), hb.typed⟩
  | table limits =>
    rw [hd] at hchange hentry
    have hk : (Call.addImport im).kind? = some .table := congrArg (some ∘ ImportDesc.kind) hd
    obtain ⟨_, hfirst, h'⟩ := Except.bind_eq_ok_iff.mp hchange
    rw [← Except.ok.inj h']
    exact ⟨hb.types, hb.functions.skip hk (by decide), hb.globals.skip hk (by decide),
      hb.memories.skip hk (by decide),
      hb.tables.addImport (importFirst_eq_ok_iff.mp hfirst) hentry rfl, hb.typed⟩
  | other kind =>
    rw [hd] at hchange
    cases hchange

/-- **A call that succeeds is recorded**, in the namespace of its kind and in no other. -/
theorem records_perform (hb : Records types b.space calls) (h : b.perform c = .ok b') :
    Records types b'.space (calls ++ [c]) := by
  cases c with
  | addImport im => exact records_addImport hb h
  | addFunction typeIndex =>
    rw [perform] at h
    have hchange := update_eq_ok h
    have hk : (Call.addFunction typeIndex).kind? = some .func := rfl
    split at hchange
    · cases hchange
    · next hlt =>
      rw [← Except.ok.inj hchange]
      refine ⟨hb.types, hb.functions.define rfl rfl, hb.globals.skip hk (by decide),
        hb.memories.skip hk (by decide), hb.tables.skip hk (by decide), ?_⟩
      show ∀ t ∈ b.space.functions.imported ++ (b.space.functions.defined ++ [typeIndex]), _
      rw [← List.append_assoc]
      exact List.forall_mem_append.mpr ⟨hb.typed, List.forall_mem_singleton.mpr (Nat.lt_of_not_le hlt)⟩
  | addGlobal type =>
    rw [perform] at h
    have hchange := update_eq_ok h
    rw [← Except.ok.inj hchange]
    have hk : (Call.addGlobal type).kind? = some .global := rfl
    exact ⟨hb.types, hb.functions.skip hk (by decide), hb.globals.define rfl rfl,
      hb.memories.skip hk (by decide), hb.tables.skip hk (by decide), hb.typed⟩
  | addMemory limits =>
    rw [perform] at h
    have hchange := update_eq_ok h
    rw [← Except.ok.inj hchange]
    have hk : (Call.addMemory limits).kind? = some .memory := rfl
    exact ⟨hb.types, hb.functions.skip hk (by decide), hb.globals.skip hk (by decide),
      hb.memories.define rfl rfl, hb.tables.skip hk (by decide), hb.typed⟩
  | addTable limits =>
    rw [perform] at h
    have hchange := update_eq_ok h
    rw [← Except.ok.inj hchange]
    have hk : (Call.addTable limits).kind? = some .table := rfl
    exact ⟨hb.types, hb.functions.skip hk (by decide), hb.globals.skip hk (by decide),
      hb.memories.skip hk (by decide), hb.tables.define rfl rfl, hb.typed⟩
  | build =>
    have hspace : b'.space = b.space := by
      rw [perform, build] at h
      split at h
      · cases h
      · rw [← Except.ok.inj h]
    have hk : Call.build.kind? = none := rfl
    rw [hspace]
    exact ⟨hb.types, hb.functions.skip hk (by decide), hb.globals.skip hk (by decide),
      hb.memories.skip hk (by decide), hb.tables.skip hk (by decide), hb.typed⟩

/-! ## Which calls succeed -/

/-- Sealed index spaces refuse every call. -/
theorem perform_of_isSealed (hb : b.isSealed = true) (c : Call) : b.perform c = .error .sealed := by
  cases c <;> exact if_pos hb

/-- A call for an entry is a change of the index spaces. -/
theorem perform_eq_update (hc : c ≠ .build) : ∃ change, b.perform c = b.update change := by
  cases c with
  | build => exact absurd rfl hc
  | _ =>
    simp only [perform, addImport, addFunction, addGlobal, addMemory, addTable]
    exact ⟨_, rfl⟩

/-- Only `build` seals. -/
theorem isSealed_of_perform (h : b.perform c = .ok b') : b'.isSealed = true ↔ c = .build := by
  by_cases hb : b.isSealed = true
  · rw [perform_of_isSealed hb] at h
    cases h
  by_cases hc : c = .build
  · subst hc
    rw [perform, build, if_neg hb] at h
    exact iff_of_true (by rw [← Except.ok.inj h]) rfl
  · obtain ⟨change, hchange⟩ := perform_eq_update (b := b) hc
    rw [hchange, update, if_neg hb] at h
    split at h
    · exact iff_of_false (by rwa [← Except.ok.inj h]) hc
    · cases h

theorem update_eq_error_iff (hb : ¬b.isSealed = true) {f : IndexSpace → Except Error IndexSpace}
    {e : Error} : b.update f = .error e ↔ f b.space = .error e := by
  rw [update, if_neg hb]
  split
  · next hf => exact iff_of_false (by rintro ⟨⟩) (by rw [hf]; rintro ⟨⟩)
  · next hf =>
    rw [hf]
    exact ⟨fun h => congrArg _ (Except.error.inj h), fun h => congrArg _ (Except.error.inj h)⟩

/-- An import is refused for a definition of its kind, or for what else stands against it. -/
theorem importFirst_bind_fails_iff {α β : Type} {n : Namespace α} {kind : Kind} {im : Import}
    {next : Unit → Except Error β} :
    (∃ e, (importFirst n kind im >>= next) = .error e) ↔ n.defined ≠ [] ∨ ∃ e, next () = .error e := by
  rw [importFirst]
  split
  · next h =>
    have hempty := List.isEmpty_iff.mp h
    exact ⟨.inr, fun h => h.resolve_left fun hne => hne hempty⟩
  · next h =>
    exact iff_of_true ⟨_, rfl⟩ (.inl fun hempty => h (List.isEmpty_iff.mpr hempty))

theorem addImport_fails_iff (hb : ¬b.isSealed = true) (hr : Records types b.space calls)
    (im : Import) : (∃ e, b.addImport im = .error e) ↔ (Call.addImport im).IsRefused types calls := by
  have hdefined {α : Type} {n : Namespace α} {kind : ExternKind} {desc : α → ImportDesc}
      (hl : n.Lists kind desc calls) :
      n.defined ≠ [] ↔ ∃ d, (Origin.defined, d) ∈ entriesOf kind calls :=
    (not_congr hl.defined_eq_nil_iff).trans not_not
  have hpure : ∀ s : IndexSpace, ¬∃ e, (pure s : Except Error IndexSpace) = .error e := by
    rintro s ⟨e, ⟨⟩⟩
  rw [addImport]
  simp only [update_eq_error_iff hb]
  rw [Call.IsRefused]
  cases hd : im.desc with
  | func typeIndex =>
    rw [importFirst_bind_fails_iff, hdefined hr.functions, hr.types]
    refine or_congr Iff.rfl ?_
    by_cases hle : types.length ≤ typeIndex.toNat
    · exact iff_of_true ⟨_, if_pos hle⟩ (.inl ⟨typeIndex, rfl, hle⟩)
    · rw [if_neg hle]
      exact iff_of_false (hpure _) (by simp [hle])
  | global type =>
    rw [importFirst_bind_fails_iff, hdefined hr.globals]
    exact or_congr Iff.rfl (iff_of_false (hpure _) (by simp))
  | memory limits =>
    rw [importFirst_bind_fails_iff, hdefined hr.memories]
    exact or_congr Iff.rfl (iff_of_false (hpure _) (by simp))
  | table limits =>
    rw [importFirst_bind_fails_iff, hdefined hr.tables]
    exact or_congr Iff.rfl (iff_of_false (hpure _) (by simp))
  | other kind => exact iff_of_true ⟨_, rfl⟩ (.inr (.inr ⟨kind, rfl⟩))

/-- **Until the index spaces are sealed, a call fails exactly for what stands against it.** -/
theorem perform_fails_iff (hb : ¬b.isSealed = true) (hr : Records types b.space calls) (c : Call) :
    (∃ e, b.perform c = .error e) ↔ c.IsRefused types calls := by
  have hdefine : ∀ f : IndexSpace → IndexSpace, ¬∃ e, b.update (fun s => .ok (f s)) = .error e := by
    rintro f ⟨e, he⟩
    cases (update_eq_error_iff hb).mp he
  cases c with
  | addImport im => exact addImport_fails_iff hb hr im
  | addFunction typeIndex =>
    rw [perform, addFunction]
    simp only [update_eq_error_iff hb]
    rw [Call.IsRefused, ← hr.types]
    by_cases hle : b.space.types.length ≤ typeIndex.toNat
    · exact iff_of_true ⟨_, if_pos hle⟩ hle
    · simp [hle]
  | addGlobal type =>
    rw [perform, addGlobal]
    exact iff_of_false (hdefine _) id
  | addMemory limits =>
    rw [perform, addMemory]
    exact iff_of_false (hdefine _) id
  | addTable limits =>
    rw [perform, addTable]
    exact iff_of_false (hdefine _) id
  | build =>
    rw [perform, build, if_neg hb]
    exact iff_of_false (by rintro ⟨e, ⟨⟩⟩) id

/-! ## Sessions -/

theorem session_concat (types : List (Option FuncType)) (calls : List Call) (c : Call) :
    session types (calls ++ [c]) = (session types calls).next c := by
  rw [session, List.foldl_concat, ← session]

namespace Session

variable {s : Session}

theorem next_of_error {e : Error} (h : s.builder.perform c = .error e) : s.next c = s := by
  rw [next, h]

theorem next_of_ok (h : s.builder.perform c = .ok b) : s.next c = ⟨b, s.granted ++ [c]⟩ := by
  rw [next, h]

/-- What holds between the calls of a session. -/
structure Valid (types : List (Option FuncType)) (s : Session) : Prop where
  records : Records types s.builder.space s.granted
  isSealed : s.builder.isSealed = true ↔ .build ∈ s.granted
  replay : s.granted.foldlM perform (ofTypes types) = .ok s.builder

theorem Valid.next (h : s.Valid types) (c : Call) : (s.next c).Valid types := by
  cases hc : s.builder.perform c with
  | error e => rwa [next_of_error hc]
  | ok b =>
    rw [next_of_ok hc]
    have hopen : ¬s.builder.isSealed = true := by
      intro hsealed
      rw [perform_of_isSealed hsealed] at hc
      cases hc
    refine ⟨records_perform h.records hc, ?_, ?_⟩
    · rw [isSealed_of_perform hc, List.mem_append, List.mem_singleton, eq_comm]
      exact (or_iff_right (mt h.isSealed.mpr hopen)).symm
    · rw [List.foldlM_append, h.replay]
      show ([c].foldlM perform s.builder) = _
      rw [List.foldlM_cons, hc]
      rfl

theorem foldl_next_of_isSealed (h : s.builder.isSealed = true) (calls : List Call) :
    calls.foldl next s = s := by
  induction calls with
  | nil => rfl
  | cons c calls ih => rw [List.foldl_cons, next_of_error (perform_of_isSealed h c), ih]

end Session

theorem valid_session (types : List (Option FuncType)) (calls : List Call) :
    (session types calls).Valid types := by
  induction calls using List.reverseRecOn with
  | nil =>
    exact ⟨⟨rfl, rfl, rfl, rfl, rfl, List.forall_mem_nil _⟩,
      iff_of_false Bool.false_ne_true List.not_mem_nil, rfl⟩
  | append_singleton calls c ih =>
    rw [session_concat]
    exact ih.next c

end Builder

/-! ## Look-ups -/

/-- The four look-ups resolve the indices of the entries that the calls ask for. -/
structure Answers (types : List (Option FuncType)) (space : IndexSpace) (calls : List Call) : Prop where
  functions : Resolves (entriesOf .func calls) .function .func (fun t => types[t.toNat]?) space.function
  globals : Resolves (entriesOf .global calls) .global .global some space.global
  memories : Resolves (entriesOf .memory calls) .memory .memory some space.memory
  tables : Resolves (entriesOf .table calls) .table .table some space.table

theorem Records.answers {types : List (Option FuncType)} {space : IndexSpace} {calls : List Call}
    (h : Records types space calls) : space.Answers types calls := by
  constructor
  · refine h.functions.resolves ?_ ?_ ?_
    · intro t ht
      exact ⟨_, List.getElem?_eq_getElem (h.types ▸ h.typed t ht)⟩
    · intro i loc t type hget htype
      rw [function, hget, h.types]
      dsimp only
      rw [htype]
      rfl
    · intro i hget
      rw [function, hget]
  · refine h.globals.resolves (fun a _ => ⟨a, rfl⟩) ?_ ?_
    · rintro i loc a b hget ⟨⟩
      rw [global, hget]
    · intro i hget
      rw [global, hget]
  · refine h.memories.resolves (fun a _ => ⟨a, rfl⟩) ?_ ?_
    · rintro i loc a b hget ⟨⟩
      rw [memory, hget]
    · intro i hget
      rw [memory, hget]
  · refine h.tables.resolves (fun a _ => ⟨a, rfl⟩) ?_ ?_
    · rintro i loc a b hget ⟨⟩
      rw [table, hget]
    · intro i hget
      rw [table, hget]

namespace Builder

/-- **Index spaces as any sequence of calls leaves them.** -/
structure KeepsImportsFirst (types : List (Option FuncType)) (calls : List Call) (s : Session) : Prop where
  /-- Each namespace has the entries of the calls that succeeded, in order, its imports before its definitions, and all functions
  are of types that exist. -/
  records : Records types s.builder.space s.granted
  /-- Every index leads to the entry at its place. -/
  answers : s.builder.space.Answers types s.granted
  /-- The calls that succeeded do so without the others as well, and come to the same. -/
  replay : s.granted.foldlM perform (ofTypes types) = .ok s.builder
  /-- A call that fails changes nothing. -/
  failed : ∀ c e, s.builder.perform c = .error e → session types (calls ++ [c]) = s
  /-- Before the index spaces are sealed, a call fails for what stands against it and for nothing else. -/
  refused : .build ∉ s.granted →
    ∀ c, (∃ e, s.builder.perform c = .error e) ↔ c.IsRefused types s.granted
  /-- After that every call fails, whatever else is called before it, and nothing changes any more. -/
  isSealed : .build ∈ s.granted → ∀ more : List Call,
    session types (calls ++ more) = s ∧
      ∀ c, (session types (calls ++ more)).builder.perform c = .error .sealed

/-- **Every sequence of calls keeps each namespace in order, imports first.** -/
theorem calls_keep_imports_first (types : List (Option FuncType)) (calls : List Call) :
    KeepsImportsFirst types calls (session types calls) := by
  have hvalid := valid_session types calls
  refine ⟨hvalid.records, hvalid.records.answers, hvalid.replay, ?_, ?_, ?_⟩
  · intro c e hc
    rw [session_concat, Session.next_of_error hc]
  · intro hopen
    exact perform_fails_iff (mt hvalid.isSealed.mp hopen) hvalid.records
  · intro hbuild more
    have hsealed := hvalid.isSealed.mpr hbuild
    have hsame : session types (calls ++ more) = session types calls := by
      rw [session, List.foldl_append, ← session, Session.foldl_next_of_isSealed hsealed]
    rw [hsame]
    exact ⟨rfl, perform_of_isSealed hsealed⟩

/-- A memory may still be imported after a global is defined, a global may not. -/
example :
    (session [] [.addGlobal none, .addImport ⟨"env", "memory", .memory none⟩,
      .addImport ⟨"env", "limit", .global none⟩, .build, .addTable none]).granted =
    [.addGlobal none, .addImport ⟨"env", "memory", .memory none⟩, .build] := by decide

end Builder

end IndexSpace

end FlatWasm
