import Mathlib
import FlatWasm.Proofs.Linking.Allocation

/-!
# How an instantiation goes

An instantiation binds imports, makes stores and loads segments.  Up to the segments it either comes to an allotment of new
stores (`Compiled.Allots`) or stops, in one of the ways that `Compiled.Stops` lists, with a pool to which nothing but new stores
was added.  Segments are then loaded table by table and memory by memory, and each of these steps writes one store or
changes nothing.  `Compiled.ends_instantiate` puts the stages together.

Of every instantiation it follows that it does to the pool only what `Pool.Evolves` allows, whether it succeeds or not
(`Compiled.evolves_link`), and of one that succeeds, what the instance is (`Compiled.exists_of_link`).
-/

namespace FlatWasm

/-! ## Segments -/

namespace Instance

variable {inst : Instance} {config : Config} {w : World} {fails : Failure LinkError → World → Prop}

/-- The segments of one store, in order. -/
def ownSegments (segments : List (UInt32 × Segment)) (i : ℕ) : List Segment :=
  (segments.filter fun s => s.1.toNat = i).map Prod.snd

/-- What a log shows of growth. -/
def growthEvents (kind : String) (i : ℕ) (growth : Option Growth) : List Event :=
  growth.toList.map fun g => .grew kind i g.before.toNat g.after

theorem ends_noteGrowth {kind : String} {i : ℕ} {growth : Option Growth} {Q : Unit → World → Prop}
    (h : Q () { w with log := growthEvents kind i growth ++ w.log }) :
    (noteGrowth kind i growth).Ends w Q fails := by
  cases growth with
  | none => exact Link.ends_pure h
  | some g => exact Link.ends_event h

section Stores

variable {segments : List (UInt32 × Segment)} {a : Address} {i : ℕ} {Q : Unit → World → Prop}

/-- The segments of a table are written into it, or nothing is. -/
theorem ends_loadTable
    (hok : ∀ t growth store, w.pool.tables[a]? = some t →
      inst.loadStore config "table" i w.pool t.store (ownSegments segments i) =
        .ok (growth, store) →
      Q () ⟨w.pool.setTable a ⟨store⟩, growthEvents "table" i growth ++ w.log⟩)
    (hfail : ∀ e, (present w.pool.tables[a]? >>= fun t =>
      inst.loadStore config "table" i w.pool t.store (ownSegments segments i)) = .error e →
        fails e w) :
    (inst.loadTable config segments a i).Ends w Q fails := by
  rw [loadTable]
  refine (Link.ends_get (Q := fun v v' => w = v ∧ w = v') ⟨rfl, rfl⟩).bind ?_
  rintro _ _ ⟨rfl, rfl⟩
  refine (Link.ends_ofPool (Q := fun loaded v' => w = v' ∧ ∃ t, w.pool.tables[a]? = some t ∧
    inst.loadStore config "table" i w.pool t.store (ownSegments segments i) = .ok loaded)
    (fun loaded hl => ⟨rfl, ?_⟩) hfail).bind ?_
  · obtain ⟨t, ht, hload⟩ := Except.bind_eq_ok_iff.mp hl
    exact ⟨t, present_eq_ok_iff.mp ht, hload⟩
  rintro ⟨growth, store⟩ _ ⟨rfl, t, ht, hload⟩
  refine (Link.ends_setPool (Q := fun _ v => v = ⟨w.pool.setTable a ⟨store⟩, w.log⟩) rfl).bind ?_
  rintro ⟨⟩ _ rfl
  exact ends_noteGrowth (hok t growth store ht hload)

/-- The same for a memory. -/
theorem ends_loadMemory
    (hok : ∀ m growth store, w.pool.memories[a]? = some m →
      inst.loadStore config "memory" i w.pool m.store (ownSegments segments i) =
        .ok (growth, store) →
      Q () ⟨w.pool.setMemory a ⟨store⟩, growthEvents "memory" i growth ++ w.log⟩)
    (hfail : ∀ e, (present w.pool.memories[a]? >>= fun m =>
      inst.loadStore config "memory" i w.pool m.store (ownSegments segments i)) = .error e →
        fails e w) :
    (inst.loadMemory config segments a i).Ends w Q fails := by
  rw [loadMemory]
  refine (Link.ends_get (Q := fun v v' => w = v ∧ w = v') ⟨rfl, rfl⟩).bind ?_
  rintro _ _ ⟨rfl, rfl⟩
  refine (Link.ends_ofPool (Q := fun loaded v' => w = v' ∧ ∃ m, w.pool.memories[a]? = some m ∧
    inst.loadStore config "memory" i w.pool m.store (ownSegments segments i) = .ok loaded)
    (fun loaded hl => ⟨rfl, ?_⟩) hfail).bind ?_
  · obtain ⟨m, hm, hload⟩ := Except.bind_eq_ok_iff.mp hl
    exact ⟨m, present_eq_ok_iff.mp hm, hload⟩
  rintro ⟨growth, store⟩ _ ⟨rfl, m, hm, hload⟩
  refine (Link.ends_setPool (Q := fun _ v => v = ⟨w.pool.setMemory a ⟨store⟩, w.log⟩) rfl).bind ?_
  rintro ⟨⟩ _ rfl
  exact ends_noteGrowth (hok m growth store hm hload)

end Stores

/-- Elements are loaded table by table: an invariant of these steps holds at the end. -/
theorem ends_loadTables {I : ℕ → World → Prop} (h₀ : I 0 w)
    (hsegments : ∀ e, elementSegments inst.compiled.module.elements = .error e → fails e w)
    (hindex : ∀ i w e, i < inst.compiled.space.tables.size → I i w →
      present (inst.tableAt? (UInt32.ofNat i)) = .error e → fails e w)
    (hload : ∀ segments i a w, elementSegments inst.compiled.module.elements = .ok segments →
      i < inst.compiled.space.tables.size → I i w → inst.tableAt? (UInt32.ofNat i) = some a →
        (inst.loadTable config segments a i).Ends w (fun _ => I (i + 1)) fails) :
    (inst.loadTables config).Ends w (fun _ => I inst.compiled.space.tables.size) fails := by
  refine (Link.ends_ofPool (Q := fun segments w' =>
    elementSegments inst.compiled.module.elements = .ok segments ∧ w' = w)
    (fun _ hs => ⟨hs, rfl⟩) hsegments).bind ?_
  rintro segments w' ⟨hs, rfl⟩
  refine Link.ends_forM_range h₀ fun i w hi hI => ?_
  refine (Link.ends_ofPool (Q := fun a w' => inst.tableAt? (UInt32.ofNat i) = some a ∧ w' = w)
    (fun _ ha => ⟨present_eq_ok_iff.mp ha, rfl⟩) (fun e he => hindex i w e hi hI he)).bind ?_
  rintro a w' ⟨ha, rfl⟩
  exact hload segments i a w' hs hi hI ha

/-- Data are loaded memory by memory. -/
theorem ends_loadMemories {I : ℕ → World → Prop} (h₀ : I 0 w)
    (hsegments : ∀ e, dataSegments inst.compiled.module.data = .error e → fails e w)
    (hindex : ∀ i w e, i < inst.compiled.space.memories.size → I i w →
      present (inst.memoryAt? (UInt32.ofNat i)) = .error e → fails e w)
    (hload : ∀ segments i a w, dataSegments inst.compiled.module.data = .ok segments →
      i < inst.compiled.space.memories.size → I i w → inst.memoryAt? (UInt32.ofNat i) = some a →
        (inst.loadMemory config segments a i).Ends w (fun _ => I (i + 1)) fails) :
    (inst.loadMemories config).Ends w (fun _ => I inst.compiled.space.memories.size) fails := by
  refine (Link.ends_ofPool (Q := fun segments w' =>
    dataSegments inst.compiled.module.data = .ok segments ∧ w' = w)
    (fun _ hs => ⟨hs, rfl⟩) hsegments).bind ?_
  rintro segments w' ⟨hs, rfl⟩
  refine Link.ends_forM_range h₀ fun i w hi hI => ?_
  refine (Link.ends_ofPool (Q := fun a w' => inst.memoryAt? (UInt32.ofNat i) = some a ∧ w' = w)
    (fun _ ha => ⟨present_eq_ok_iff.mp ha, rfl⟩) (fun e he => hindex i w e hi hI he)).bind ?_
  rintro a w' ⟨ha, rfl⟩
  exact hload segments i a w' hs hi hI ha

section Evolution

variable {q : Pool} (hw : q.Evolves w.pool)

include hw

/-- Whatever is to be known of its failures, loading elements evolves the pool. -/
theorem ends_loadTables_evolves
    (hsegments : ∀ e, elementSegments inst.compiled.module.elements = .error e → fails e w)
    (hindex : ∀ i w e, i < inst.compiled.space.tables.size → q.Evolves w.pool →
      present (inst.tableAt? (UInt32.ofNat i)) = .error e → fails e w)
    (hload : ∀ segments i a w e, elementSegments inst.compiled.module.elements = .ok segments →
      i < inst.compiled.space.tables.size → q.Evolves w.pool →
      inst.tableAt? (UInt32.ofNat i) = some a →
      (present w.pool.tables[a]? >>= fun t =>
        inst.loadStore config "table" i w.pool t.store (ownSegments segments i)) = .error e →
        fails e w) :
    (inst.loadTables config).Ends w (fun _ w' => q.Evolves w'.pool) fails := by
  refine ends_loadTables (I := fun _ w => q.Evolves w.pool) hw hsegments hindex
    fun segments i a w hs hi hw ha => ends_loadTable ?_ fun e => hload segments i a w e hs hi hw ha
  intro t growth store ht hstore
  have he := Linear.evolves_of_load (Except.mapError_eq_ok_iff.mp hstore)
  exact hw.trans (Pool.evolves_setTable ht he)

/-- The same for data. -/
theorem ends_loadMemories_evolves
    (hsegments : ∀ e, dataSegments inst.compiled.module.data = .error e → fails e w)
    (hindex : ∀ i w e, i < inst.compiled.space.memories.size → q.Evolves w.pool →
      present (inst.memoryAt? (UInt32.ofNat i)) = .error e → fails e w)
    (hload : ∀ segments i a w e, dataSegments inst.compiled.module.data = .ok segments →
      i < inst.compiled.space.memories.size → q.Evolves w.pool →
      inst.memoryAt? (UInt32.ofNat i) = some a →
      (present w.pool.memories[a]? >>= fun m =>
        inst.loadStore config "memory" i w.pool m.store (ownSegments segments i)) = .error e →
        fails e w) :
    (inst.loadMemories config).Ends w (fun _ w' => q.Evolves w'.pool) fails := by
  refine ends_loadMemories (I := fun _ w => q.Evolves w.pool) hw hsegments hindex
    fun segments i a w hs hi hw ha => ends_loadMemory ?_ fun e => hload segments i a w e hs hi hw ha
  intro m growth store hm hstore
  have he := Linear.evolves_of_load (Except.mapError_eq_ok_iff.mp hstore)
  exact hw.trans (Pool.evolves_setMemory hm he)

end Evolution

end Instance

/-! ## The stages -/

namespace Compiled

variable {c : Compiled} {config : Config} {imports : Imports} {p : Pool} {canceled : Bool}

/-- What a module is instantiated with: the bindings of its imports and the stores that it makes. -/
structure Allots (c : Compiled) (config : Config) (imports : Imports) (p : Pool) (r : Bound)
    (s : Allotment) : Prop where
  bound : imports.resolve c.space p c.module.imports = .ok r
  globals : c.MakesGlobals r p c.module.globals s.globals
  tables : MakesTables c.module.tables s.tables
  memories : MakesMemories config.maxPages c.module.memories s.memories

/-- How an instantiation stops before any segment is loaded, and the pool that it leaves. -/
inductive Stops (c : Compiled) (config : Config) (imports : Imports) (p : Pool) (canceled : Bool) :
    Failure LinkError → Pool → Prop where
  | binding {e : Failure LinkError} (h : c.bindImports imports p = .error e) :
      Stops c config imports p canceled e p
  | global {r : Bound} {seen rest : List Global} {g : Global} {globals : List GlobalCell}
      {e : Failure LinkError} (hr : imports.resolve c.space p c.module.imports = .ok r)
      (hitems : c.module.globals = seen ++ g :: rest) (hmade : c.MakesGlobals r p seen globals)
      (h : (c.instanceOf r p { globals }).makeGlobal g seen.length (p.allot { globals }) =
        .error e) : Stops c config imports p canceled e (p.allot { globals })
  | table {globals : List GlobalCell} {seen rest : List Limits} {limits : Limits}
      {tables : List Table} {e : Failure LinkError}
      (hitems : c.module.tables = seen ++ limits :: rest) (hmade : MakesTables seen tables)
      (h : (Table.allocate limits).mapError (Failure.map (.table seen.length)) = .error e) :
      Stops c config imports p canceled e (p.allot { globals, tables })
  | memory {globals : List GlobalCell} {tables : List Table} {seen rest : List Limits}
      {limits : Limits} {memories : List Memory} {e : Failure LinkError}
      (htables : MakesTables c.module.tables tables)
      (hitems : c.module.memories = seen ++ limits :: rest)
      (hmade : MakesMemories config.maxPages seen memories)
      (h : (Memory.allocate limits config.maxPages).mapError (Failure.map (.memory seen.length)) =
        .error e) : Stops c config imports p canceled e (p.allot { globals, tables, memories })
  | canceled {r : Bound} {s : Allotment} (h : c.Allots config imports p r s)
      (hc : canceled = true) : Stops c config imports p canceled (.error .canceled) (p.allot s)

theorem bindImports_eq_ok {inst : Instance} (h : c.bindImports imports p = .ok inst) :
    ∃ r, imports.resolve c.space p c.module.imports = .ok r ∧ inst = c.instanceOf r p {} := by
  obtain ⟨r, hr, h⟩ := Except.bind_eq_ok_iff.mp h
  exact ⟨r, Except.mapError_eq_ok_iff.mp hr, (Except.ok.inj h).symm⟩

/-- **An instantiation, stage by stage.**  It stops before the segments, or comes to an allotment and loads the segments of
the instance that the allotment gives. -/
theorem ends_instantiate {log : List Event} {fails : Failure LinkError → World → Prop}
    {Q R : Bound → Allotment → World → Prop}
    (hstops : ∀ e q, c.Stops config imports p canceled e q → fails e ⟨q, log⟩)
    (htables : ∀ r s, c.Allots config imports p r s →
      ((c.instanceOf r p s).loadTables config).Ends ⟨p.allot s, log⟩ (fun _ => Q r s) fails)
    (hmemories : ∀ r s w, c.Allots config imports p r s → Q r s w →
      ((c.instanceOf r p s).loadMemories config).Ends w (fun _ => R r s) fails) :
    (c.instantiate config imports canceled).Ends ⟨p, log⟩
      (fun inst w => ∃ r s w', c.Allots config imports p r s ∧ inst = c.instanceOf r p s ∧
        R r s w' ∧ w = { w' with log := inst.summary :: w'.log }) fails := by
  rw [instantiate]
  -- imports
  refine (Link.ends_ofPool (Q := fun inst w => ∃ r,
    imports.resolve c.space p c.module.imports = .ok r ∧ inst = c.instanceOf r p {} ∧
      w = ⟨p.allot {}, log⟩) (fun inst hinst => ?_) (fun e he => hstops e p (.binding he))).bind ?_
  · obtain ⟨r, hr, rfl⟩ := bindImports_eq_ok hinst
    exact ⟨r, hr, rfl, by rw [Pool.allot_empty]⟩
  rintro _ _ ⟨r, hr, rfl, rfl⟩
  -- stores
  refine (ends_allocateGlobals fun seen g rest globals e hitems hmade he =>
    hstops e _ (.global hr hitems hmade he)).bind ?_
  rintro _ _ ⟨globals, hglobals, rfl, rfl⟩
  refine (ends_allocateTables fun seen limits rest tables e hitems hmade he =>
    hstops e _ (.table hitems hmade he)).bind ?_
  rintro _ _ ⟨tables, htables', rfl, rfl⟩
  refine (ends_allocateMemories fun seen limits rest memories e hitems hmade he =>
    hstops e _ (.memory htables' hitems hmade he)).bind ?_
  rintro _ _ ⟨memories, hmemories', rfl, rfl⟩
  have hallots : c.Allots config imports p r { globals, tables, memories } :=
    ⟨hr, hglobals, htables', hmemories'⟩
  -- segments
  have hsegments : Link.Ends (do
      (c.instanceOf r p { globals, tables, memories }).loadTables config
      (c.instanceOf r p { globals, tables, memories }).loadMemories config
      Link.event (c.instanceOf r p { globals, tables, memories }).summary
      return c.instanceOf r p { globals, tables, memories })
      ⟨p.allot { globals, tables, memories }, log⟩
      (fun inst w => ∃ r s w', c.Allots config imports p r s ∧ inst = c.instanceOf r p s ∧
        R r s w' ∧ w = { w' with log := inst.summary :: w'.log }) fails :=
    (htables r _ hallots).bind fun _ w hQ => (hmemories r _ w hallots hQ).bind fun _ w' hR =>
      (Link.ends_event rfl).bind fun _ w'' hw => Link.ends_pure ⟨r, _, w', hallots, rfl, hR, hw⟩
  cases canceled with
  | false => exact hsegments
  | true =>
    exact (Link.ends_throw (hstops _ _ (.canceled hallots rfl))).bind fun _ _ => False.elim

/-! ## What an instantiation does to the pool -/

theorem MakesTables.inBounds {items : List Limits} {tables : List Table}
    (h : MakesTables items tables) : ∀ t ∈ tables, t.InBounds := by
  intro t ht
  obtain ⟨i, hi⟩ := List.mem_iff_getElem?.mp ht
  obtain ⟨limits, -, hlimits⟩ := exists_getElem?_of_forall₂ h hi
  exact Table.inBounds_of_allocate hlimits

theorem MakesMemories.inBounds {ceiling : UInt32} {items : List Limits} {memories : List Memory}
    (h : MakesMemories ceiling items memories) : ∀ m ∈ memories, m.InBounds := by
  intro m hm
  obtain ⟨i, hi⟩ := List.mem_iff_getElem?.mp hm
  obtain ⟨limits, -, hlimits⟩ := exists_getElem?_of_forall₂ h hi
  exact Memory.inBounds_of_allocate hlimits

theorem evolves_allot {s : Allotment} (ht : ∀ t ∈ s.tables, t.InBounds)
    (hm : ∀ m ∈ s.memories, m.InBounds) : p.Evolves (p.allot s) :=
  (p.evolves_addGlobals s.globals).trans
    ((Pool.evolves_addTables _ ht).trans (Pool.evolves_addMemories _ hm))

theorem Allots.evolves {r : Bound} {s : Allotment} (h : c.Allots config imports p r s) :
    p.Evolves (p.allot s) :=
  evolves_allot h.tables.inBounds h.memories.inBounds

theorem Stops.evolves {e : Failure LinkError} {q : Pool}
    (h : c.Stops config imports p canceled e q) : p.Evolves q := by
  cases h with
  | binding _ => exact .refl p
  | global _ _ _ _ => exact evolves_allot (List.forall_mem_nil _) (List.forall_mem_nil _)
  | table _ hmade _ => exact evolves_allot hmade.inBounds (List.forall_mem_nil _)
  | memory htables _ hmade _ => exact evolves_allot htables.inBounds hmade.inBounds
  | canceled h _ => exact h.evolves

/-- **Every instantiation evolves the pool**, and one that succeeds gives the instance of an allotment, whose stores have been
there before any segment was loaded. -/
theorem ends_instantiate_evolves (log : List Event) :
    (c.instantiate config imports canceled).Ends ⟨p, log⟩
      (fun inst w => ∃ r s, c.Allots config imports p r s ∧ inst = c.instanceOf r p s ∧
        (p.allot s).Evolves w.pool) (fun _ w => p.Evolves w.pool) := by
  refine (ends_instantiate (Q := fun _ s w => (p.allot s).Evolves w.pool)
    (R := fun _ s w => (p.allot s).Evolves w.pool) (fun e q hq => hq.evolves)
    (fun r s hs => ?_) (fun r s w hs hw => ?_)).mono ?_
  · exact Instance.ends_loadTables_evolves (.refl _) (fun _ _ => hs.evolves)
      (fun _ w _ _ hw _ => hs.evolves.trans hw) fun _ _ _ w _ _ _ hw _ _ => hs.evolves.trans hw
  · exact Instance.ends_loadMemories_evolves hw (fun _ _ => hs.evolves.trans hw)
      (fun _ w _ _ hw _ => hs.evolves.trans hw) fun _ _ _ w _ _ _ hw _ _ => hs.evolves.trans hw
  · rintro inst w ⟨r, s, w', hs, hinst, hw', rfl⟩
    exact ⟨r, s, hs, hinst, hw'⟩

theorem link_eq {result : Except (Failure LinkError) Instance} {w : World}
    (h : (c.instantiate config imports canceled).run { pool := p } = (result, w)) :
    c.link config imports p canceled = (result, w.pool, w.log.reverse) := by
  rw [link, h]

theorem evolves_link (c : Compiled) (config : Config) (imports : Imports) (p : Pool)
    (canceled : Bool) : p.Evolves (c.link config imports p canceled).2.1 := by
  have hends : (c.instantiate config imports canceled).Ends ⟨p, []⟩ _ _ :=
    ends_instantiate_evolves []
  rcases hrun : (c.instantiate config imports canceled).run { pool := p } with ⟨result, w⟩
  rw [link_eq hrun]
  cases result with
  | error e => exact hends.failure e w hrun
  | ok inst =>
    obtain ⟨r, s, hs, -, hw⟩ := hends.answer inst w hrun
    exact hs.evolves.trans hw

theorem exists_of_link {inst : Instance} {q : Pool} {log : List Event}
    (h : c.link config imports p canceled = (.ok inst, q, log)) :
    ∃ r s, c.Allots config imports p r s ∧ inst = c.instanceOf r p s ∧ (p.allot s).Evolves q := by
  have hends : (c.instantiate config imports canceled).Ends ⟨p, []⟩ _ _ :=
    ends_instantiate_evolves []
  rcases hrun : (c.instantiate config imports canceled).run { pool := p } with ⟨result, w⟩
  rw [link_eq hrun] at h
  cases h
  exact hends.answer inst w hrun

end Compiled

/-- Whether a module can be compiled and instantiated is found out by doing so. -/
theorem Module.exists_link_of_isSome {m : Module} {config : Config} {imports : Imports} {p : Pool}
    (h : ((m.compile config).toOption.bind fun c =>
      (c.link config imports p).1.toOption).isSome = true) :
    ∃ c inst q log, m.compile config = .ok c ∧ c.link config imports p = (.ok inst, q, log) := by
  obtain ⟨inst, hinst⟩ := Option.isSome_iff_exists.mp h
  obtain ⟨c, hc, hlink⟩ := Option.bind_eq_some_iff.mp hinst
  refine ⟨c, inst, (c.link config imports p).2.1, (c.link config imports p).2.2,
    Source.toOption_eq_some_iff.mp hc, ?_⟩
  rw [← Source.toOption_eq_some_iff.mp hlink]

end FlatWasm
