import Mathlib
import FlatWasm.Proofs.Linking.Stepwise

/-!
# What a failed instantiation leaves behind

An instantiation that fails gives no instance, but imported stores are shared, and what was written into them stays.  How much
that is can be read off the error.  Before the segments nothing was written.  An error about the segments of a store says which
store it was, and then the stores before it have all of their segments and this store and those after it have none.

## Why distinct stores

Segments are sorted by index, not by store.  A store that goes by two indices can have the segments of the one and not those of
the other when an instantiation fails between them.  So the imports of a module have to be bound to different stores
(`Imports.Separates`); then no two indices lead to one address (`Compiled.tableAt?_inj`, `Compiled.memoryAt?_inj`), since
what the module defines is new.
-/

namespace FlatWasm

/-! ## Indices and addresses -/

/-- No two imports of a kind are bound to the same store. -/
structure Imports.Separates (imports : Imports) (m : Module) : Prop where
  tables : ((importsOf .table m.imports).filterMap fun im =>
    imports.tables.find? im.fullName).Nodup
  memories : ((importsOf .memory m.imports).filterMap fun im =>
    imports.memories.find? im.fullName).Nodup

theorem filterMap_eq_of_forall₂ {α β : Type} {f : α → Option β} {as : List α} {bs : List β}
    (h : List.Forall₂ (fun a b => f a = some b) as bs) : as.filterMap f = bs := by
  induction h with
  | nil => rfl
  | cons hab _ ih => rw [List.filterMap_cons_some hab, ih]

/-- In a namespace without repetitions, an entry has one location. -/
theorem Namespace.at?_inj {α : Type} {n : Namespace α} (hn : (n.imported ++ n.defined).Nodup)
    {loc loc' : Location} {a : α} (h : n.at? loc = some a) (h' : n.at? loc' = some a) :
    loc = loc' := by
  obtain ⟨himported, hdefined, hapart⟩ := List.nodup_append.mp hn
  obtain ⟨origin, i⟩ := loc
  obtain ⟨origin', j⟩ := loc'
  cases origin <;> cases origin' <;> dsimp only [at?] at h h'
  · rw [UInt32.toNat_inj.mp ((List.getElem?_inj _ himported).mp (h.trans h'.symm))]
    exact (List.getElem?_eq_some_iff.mp h).1
  · exact absurd rfl (hapart a (List.mem_of_getElem? h) a (List.mem_of_getElem? h'))
  · exact absurd rfl (hapart a (List.mem_of_getElem? h') a (List.mem_of_getElem? h))
  · rw [UInt32.toNat_inj.mp ((List.getElem?_inj _ hdefined).mp (h.trans h'.symm))]
    exact (List.getElem?_eq_some_iff.mp h).1

theorem Namespace.eq_of_get? {α : Type} {n : Namespace α} {i j : UInt32} {found found' : Location × α}
    (hi : n.get? i = some found) (hj : n.get? j = some found') (h : found.1 = found'.1) : i = j := by
  obtain ⟨a, -, rfl⟩ := Option.map_eq_some_iff.mp hi
  obtain ⟨b, -, rfl⟩ := Option.map_eq_some_iff.mp hj
  exact n.locate_injective h

/-- The addresses that the imports of a kind are bound to and those of new stores all differ, if the former do. -/
theorem nodup_addresses {R : Import → Address → Prop} {bindings : Bindings Address}
    {ims : List Import} {addresses : List Address} {size n : ℕ} (h : List.Forall₂ R ims addresses)
    (hname : ∀ im a, R im a → bindings.find? im.fullName = some a)
    (hold : ∀ im a, R im a → a < size)
    (hsep : (ims.filterMap fun im => bindings.find? im.fullName).Nodup) :
    (addresses ++ List.range' size n).Nodup := by
  rw [filterMap_eq_of_forall₂ (h.imp hname)] at hsep
  refine List.nodup_append.mpr ⟨hsep, List.nodup_range', fun a ha b hb => ?_⟩
  obtain ⟨k, hk⟩ := List.mem_iff_getElem?.mp ha
  obtain ⟨im, -, him⟩ := exists_getElem?_of_forall₂ h hk
  exact ((hold im a him).trans_le (List.mem_range'_1.mp hb).1).ne

namespace Compiled

variable {m : Module} {config config' : Config} {stopped canceled : Bool} {c : Compiled}
  {imports : Imports} {p q : Pool} {r : Bound} {s : Allotment}
  {elements data : List (UInt32 × Segment)}

/-- **No two indices lead to one table.** -/
theorem tableAt?_inj (hsep : imports.Separates c.module) (hs : c.Allots config imports p r s)
    {i j : UInt32} {a : Address} (hi : (c.instanceOf r p s).tableAt? i = some a)
    (hj : (c.instanceOf r p s).tableAt? j = some a) : i = j := by
  have hnodup : (r.tables ++ List.range' p.tables.size s.tables.length).Nodup := by
    refine nodup_addresses (Imports.resolves_of_resolve hs.bound).tables
      (fun im a h => h.name) (fun im a h => ?_) hsep.tables
    obtain ⟨table, -, htable, -⟩ := h.declared
    exact (Array.getElem?_eq_some_iff.mp htable).1
  obtain ⟨found, hfound, hat⟩ := Option.bind_eq_some_iff.mp hi
  obtain ⟨found', hfound', hat'⟩ := Option.bind_eq_some_iff.mp hj
  have hloc := Namespace.at?_inj hnodup hat hat'
  exact Namespace.eq_of_get?
    (IndexSpace.table_eq_ok_iff.mp (Source.toOption_eq_some_iff.mp hfound))
    (IndexSpace.table_eq_ok_iff.mp (Source.toOption_eq_some_iff.mp hfound')) hloc

/-- **No two indices lead to one memory.** -/
theorem memoryAt?_inj (hsep : imports.Separates c.module) (hs : c.Allots config imports p r s)
    {i j : UInt32} {a : Address} (hi : (c.instanceOf r p s).memoryAt? i = some a)
    (hj : (c.instanceOf r p s).memoryAt? j = some a) : i = j := by
  have hnodup : (r.memories ++ List.range' p.memories.size s.memories.length).Nodup := by
    refine nodup_addresses (Imports.resolves_of_resolve hs.bound).memories
      (fun im a h => h.name) (fun im a h => ?_) hsep.memories
    obtain ⟨memory, -, hmemory, -⟩ := h.declared
    exact (Array.getElem?_eq_some_iff.mp hmemory).1
  obtain ⟨found, hfound, hat⟩ := Option.bind_eq_some_iff.mp hi
  obtain ⟨found', hfound', hat'⟩ := Option.bind_eq_some_iff.mp hj
  have hloc := Namespace.at?_inj hnodup hat hat'
  exact Namespace.eq_of_get?
    (IndexSpace.memory_eq_ok_iff.mp (Source.toOption_eq_some_iff.mp hfound))
    (IndexSpace.memory_eq_ok_iff.mp (Source.toOption_eq_some_iff.mp hfound')) hloc

end Compiled

/-! ## Stores that are loaded up to an index -/

/-- Of the stores that have an index, those with an index below `n` are filled with their segments and the others are as
they were, and so are all stores that have none. -/
structure Loaded (address? : UInt32 → Option Address) (places : UInt32 → List Placed → Prop)
    (n : ℕ) (xs ys : Array Linear) : Prop where
  below : ∀ k a s, k.toNat < n → address? k = some a → xs[a]? = some s →
    ∃ placed t, places k placed ∧ ys[a]? = some t ∧ s.Filled placed t
  above : ∀ k a, n ≤ k.toNat → address? k = some a → ys[a]? = xs[a]?
  others : ∀ a, (∀ k, address? k ≠ some a) → ys[a]? = xs[a]?

/-- **A run over different stores fills those that it has come to.** -/
theorem LoadsUpTo.loaded {α : Type} {index : α → UInt32} {make : α → Except Segment.Error Segment}
    {items : List α} {segments : List (UInt32 × Segment)} {address? : UInt32 → Option Address}
    {globals : GlobalReader} {mayGrow : Bool} {xs ys : Array Linear} {n : ℕ}
    (h : LoadsUpTo (fun k => address? (UInt32.ofNat k)) (Instance.ownSegments segments) globals
      mayGrow xs n ys)
    (hmakes : Instance.Makes index make items segments)
    (hinj : ∀ i j a, address? i = some a → address? j = some a → i = j) :
    Loaded address?
      (fun k => List.Forall₂ (Places make globals) (items.filter (index · = k))) n xs ys := by
  -- among the steps that have segments, an address has one
  have hone : ∀ k a i, address? k = some a → address? (UInt32.ofNat i) = some a →
      Instance.ownSegments segments i ≠ [] → i = k.toNat := by
    intro k a i hk hi hne
    rw [← hinj _ _ _ hi hk]
    exact (UInt32.toNat_ofNat_of_lt' (Instance.lt_of_ownSegments_ne_nil hne)).symm
  refine ⟨fun k a s hk ha hs => ?_, fun k a hk ha => ?_, fun a ha => ?_⟩
  · obtain ⟨s', t, growth, hs', ht, hload⟩ := h.exists_load hk (by rwa [UInt32.ofNat_toNat])
      fun i _ hi hne => hone k a i ha hi hne
    cases hs.symm.trans hs'
    obtain ⟨placed, hplaced⟩ := Linear.exists_arePlaced_of_load hload
    exact ⟨placed, t, hmakes.forall₂_places hplaced, ht, Linear.filled_of_load hload hplaced⟩
  · refine h.getElem?_eq fun i hi hia => ?_
    by_contra hne
    exact hi.not_ge (hone k a i ha hia hne ▸ hk)
  · exact h.getElem?_eq fun i _ hia => absurd hia (ha _)

namespace Instance

/-- From the pool `p` on, the tables with an index below `n` have all of their elements, and no other table has changed. -/
def TablesLoaded (inst : Instance) (p : Pool) (n : ℕ) (q : Pool) : Prop :=
  Loaded inst.tableAt? (fun k => List.Forall₂ (Places Segment.ofElements (inst.offsetValue p))
    (inst.compiled.module.elements.filter (·.table = k))) n p.tableStores q.tableStores

/-- The memories with an index below `n` have all of their data, and no other memory has changed. -/
def MemoriesLoaded (inst : Instance) (p : Pool) (n : ℕ) (q : Pool) : Prop :=
  Loaded inst.memoryAt? (fun k => List.Forall₂ (Places Segment.ofData (inst.offsetValue p))
    (inst.compiled.module.data.filter (·.memory = k))) n p.memoryStores q.memoryStores

end Instance

/-! ## Failures -/

/-- Every store is as it was.  There may be new ones. -/
structure Pool.Keeps (p q : Pool) : Prop where
  memories : ∀ (a : Address) memory, p.memories[a]? = some memory → q.memories[a]? = some memory
  tables : ∀ (a : Address) table, p.tables[a]? = some table → q.tables[a]? = some table
  globals : ∀ (a : Address) cell, p.globals[a]? = some cell → q.globals[a]? = some cell

theorem getElem?_append_of_eq_some {α : Type} {xs ys : Array α} {a : ℕ} {x : α}
    (h : xs[a]? = some x) : (xs ++ ys)[a]? = some x := by
  rw [Array.getElem?_append_left (Array.getElem?_eq_some_iff.mp h).1, h]

theorem Pool.keeps_allot (p : Pool) (s : Allotment) : p.Keeps (p.allot s) where
  memories := fun _ _ => getElem?_append_of_eq_some
  tables := fun _ _ => getElem?_append_of_eq_some
  globals := fun _ _ => getElem?_append_of_eq_some

theorem LoadsUpTo.eq_of_zero {address? : ℕ → Option Address} {own : ℕ → List Segment}
    {globals : GlobalReader} {mayGrow : Bool} {xs ys : Array Linear}
    (h : LoadsUpTo address? own globals mayGrow xs 0 ys) : ys = xs := by
  cases h
  rfl

theorem Pool.memories_eq_of_memoryStores {p q : Pool} (h : q.memoryStores = p.memoryStores) :
    q.memories = p.memories := by
  refine (Array.map_inj_right fun m m' hm => ?_).mp h
  obtain ⟨store⟩ := m
  obtain ⟨store'⟩ := m'
  exact congrArg Memory.mk hm

namespace Compiled

variable {m : Module} {config config' : Config} {stopped canceled : Bool} {c : Compiled}
  {imports : Imports} {p q : Pool} {r : Bound} {s : Allotment}
  {elements data : List (UInt32 × Segment)} {i j : ℕ}

/-- Before the segments there are new stores and no change. -/
theorem Stops.keeps {e : Failure LinkError} (h : c.Stops config imports p canceled e q) :
    p.Keeps q := by
  cases h with
  | binding _ => simpa using p.keeps_allot {}
  | global _ _ _ _ | table _ _ _ | memory _ _ _ _ | canceled _ _ => exact p.keeps_allot _

/-- No error before the segments is one about segments. -/
theorem Stops.ne_segments (hc : m.compile config stopped = .ok c) {e : LinkError}
    (h : c.Stops config' imports p canceled (.error e) q) (kind : String) (i : ℕ)
    (cause : LoadError) : e ≠ .segments kind i cause := by
  rintro rfl
  cases h with
  | binding h =>
    have hresolve : (imports.resolve c.space p c.module.imports).mapError
        (Failure.map LinkError.binding) = .error (.error (.segments kind i cause)) := by
      cases hr : imports.resolve c.space p c.module.imports with
      | ok r =>
        rw [bindImports, hr] at h
        cases h
      | error e =>
        rw [bindImports, hr] at h
        exact congrArg Except.error (Except.error.inj h)
    rcases Failure.cases_of_mapError hresolve with ⟨_, h⟩ | ⟨_, h⟩ <;> cases h
  | @global r seen rest g globals _ hr hitems _ h =>
    obtain ⟨cell, hcell⟩ := exists_makeGlobal hc (Imports.resolves_of_resolve hr)
      (hitems ▸ List.mem_append_right _ List.mem_cons_self) seen.length { globals }
    cases h.symm.trans hcell
  | table _ _ h => rcases Failure.cases_of_mapError h with ⟨_, h⟩ | ⟨_, h⟩ <;> cases h
  | memory _ _ _ h => rcases Failure.cases_of_mapError h with ⟨_, h⟩ | ⟨_, h⟩ <;> cases h

theorem Prepares.tablesLoaded (hs : c.Prepares config imports p r s elements data)
    (hsep : imports.Separates c.module)
    (h : (c.instanceOf r p s).LoadsTo config elements data (p.allot s) i j q) :
    (c.instanceOf r p s).TablesLoaded (p.allot s) i q :=
  h.tables.loaded (Instance.makes_of_elementSegments hs.elements)
    fun _ _ _ => tableAt?_inj hsep hs.allots

theorem Prepares.memoriesLoaded (hs : c.Prepares config imports p r s elements data)
    (hsep : imports.Separates c.module)
    (h : (c.instanceOf r p s).LoadsTo config elements data (p.allot s) i j q) :
    (c.instanceOf r p s).MemoriesLoaded (p.allot s) j q :=
  h.memories.loaded (Instance.makes_of_dataSegments hs.data)
    fun _ _ _ => memoryAt?_inj hsep hs.allots

/-- Loading leaves all globals alone, those of before included. -/
theorem globals_of_loadsTo {inst : Instance}
    (h : inst.LoadsTo config elements data (p.allot s) i j q) (a : Address) (cell : GlobalCell)
    (ha : p.globals[a]? = some cell) : q.globals[a]? = some cell := by
  rw [h.globals]
  exact (p.keeps_allot s).globals a cell ha

theorem FailsAt.globals {e : Failure LinkError} (h : c.FailsAt config imports p canceled e q)
    (a : Address) (cell : GlobalCell) (ha : p.globals[a]? = some cell) :
    q.globals[a]? = some cell := by
  cases h with
  | early h => exact h.keeps.globals a cell ha
  | table _ h _ | memory _ h _ => exact globals_of_loadsTo h a cell ha

/-- **A failed instantiation leaves whole steps.**  Whether it fails or not, no global changes.  If it fails before the
segments, no store changes at all.  If the segments of a store are refused, then the tables and memories that come before
this store have all of their segments, and it and those that come after it are as they were. -/
theorem failed_link_leaves_whole_steps (hc : m.compile config stopped = .ok c)
    (hsep : imports.Separates c.module) {result : Except (Failure LinkError) Instance}
    {log : List Event} (hlink : c.link config' imports p canceled = (result, q, log)) :
    (∀ (a : Address) cell, p.globals[a]? = some cell → q.globals[a]? = some cell) ∧
      ∀ e, result = .error (.error e) →
        ((∀ kind i cause, e ≠ .segments kind i cause) → p.Keeps q) ∧
        ∀ kind i cause, e = .segments kind i cause → ∃ r s, c.Allots config' imports p r s ∧
          ((kind = "table" ∧ (c.instanceOf r p s).TablesLoaded (p.allot s) i q ∧
              q.memories = (p.allot s).memories) ∨
            (kind = "memory" ∧
              (c.instanceOf r p s).TablesLoaded (p.allot s) c.space.tables.size q ∧
              (c.instanceOf r p s).MemoriesLoaded (p.allot s) i q)) := by
  cases result with
  | ok inst =>
    obtain ⟨r, s, elements, data, -, -, h⟩ := loads_of_link hc hlink
    refine ⟨globals_of_loadsTo h, fun e he => ?_⟩
    cases he
  | error failure =>
    have hfails := failsAt_of_link hc hlink
    refine ⟨hfails.globals, fun e he => ?_⟩
    cases he
    cases hfails with
    | early h =>
      exact ⟨fun _ => h.keeps, fun kind i cause he => absurd he (h.ne_segments hc kind i cause)⟩
    | @table r s elements data n _ _ hs h he =>
      cases he with
      | refused cause =>
        refine ⟨fun hne => absurd rfl (hne "table" n cause), fun kind i cause' heq => ?_⟩
        cases heq
        exact ⟨r, s, hs.allots, .inl ⟨rfl, hs.tablesLoaded hsep h,
          Pool.memories_eq_of_memoryStores h.memories.eq_of_zero⟩⟩
    | @memory r s elements data n _ _ hs h he =>
      cases he with
      | refused cause =>
        refine ⟨fun hne => absurd rfl (hne "memory" n cause), fun kind i cause' heq => ?_⟩
        cases heq
        exact ⟨r, s, hs.allots, .inr ⟨rfl, hs.tablesLoaded hsep h, hs.memoriesLoaded hsep h⟩⟩

end Compiled

/-- A module with an element for an imported table and with data for the second page of each of two imported memories, those
for the later memory first. -/
def lopsided : Module where
  types := [some {}]
  imports := [⟨"env", "table", .table (some ⟨1, none⟩)⟩, ⟨"env", "first", .memory (some ⟨1, none⟩)⟩,
    ⟨"env", "run", .func 0⟩, ⟨"env", "second", .memory (some ⟨1, none⟩)⟩]
  elements := [{ offset := some ⟨Opcode.i32Const, [0]⟩, init := [0] }]
  data := [{ memory := 1, offset := some ⟨Opcode.i32Const, [0x80, 0x80, 0x04]⟩, init := [1] },
    { memory := 0, offset := some ⟨Opcode.i32Const, [0x80, 0x80, 0x04]⟩, init := [2] }]

/-- A pool with a memory that can grow and one that cannot. -/
def twoMemories : Pool where
  memories := #[⟨⟨.zeros 65536, pageSize, 1, 3⟩⟩, ⟨⟨.zeros 65536, pageSize, 1, 1⟩⟩]
  tables := #[⟨⟨.zeros 4, entrySize, 1, 2⟩⟩]

def lendsTwoMemories : Imports where
  functions := [(⟨"env", "run"⟩, some {})]
  memories := [(⟨"env", "first"⟩, some 0), (⟨"env", "second"⟩, some 1)]
  tables := [(⟨"env", "table"⟩, some 0)]

/-- The table has its element and the first memory has grown when the second memory is refused its data. -/
theorem lopsided_leaves_whole_steps : ∃ c q log cause r s, lopsided.compile {} = .ok c ∧
    lendsTwoMemories.Separates c.module ∧
      c.link {} lendsTwoMemories twoMemories =
        (.error (.error (.segments "memory" 1 cause)), q, log) ∧
      (c.instanceOf r twoMemories s).TablesLoaded (twoMemories.allot s) c.space.tables.size q ∧
      (c.instanceOf r twoMemories s).MemoriesLoaded (twoMemories.allot s) 1 q := by
  have hrefused : ((lopsided.compile {}).toOption.map fun c =>
      (c.link {} lendsTwoMemories twoMemories).1) =
        some (.error (.error (.segments "memory" 1 (.cannotGrow 1 2 .tooLarge)))) := by
    decide +kernel
  obtain ⟨c, hc, herror⟩ := Option.map_eq_some_iff.mp hrefused
  replace hc := Source.toOption_eq_some_iff.mp hc
  have hsep : lendsTwoMemories.Separates c.module := by
    rw [(Module.compile_eq_ok_iff.mp hc).1]
    exact ⟨by decide, by decide⟩
  have hlink : c.link {} lendsTwoMemories twoMemories =
      (.error _, (c.link {} lendsTwoMemories twoMemories).2) := Prod.ext herror rfl
  obtain ⟨-, hleaves⟩ := Compiled.failed_link_leaves_whole_steps hc hsep hlink
  obtain ⟨r, s, -, ⟨hkind, -⟩ | ⟨-, htables, hmemories⟩⟩ := (hleaves _ rfl).2 _ _ _ rfl
  · exact absurd hkind (by decide)
  · exact ⟨c, _, _, _, r, s, hc, hsep, hlink, htables, hmemories⟩

end FlatWasm
