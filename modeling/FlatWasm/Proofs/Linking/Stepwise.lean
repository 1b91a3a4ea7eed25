import Mathlib
import FlatWasm.Proofs.Linking.Loading
import FlatWasm.Proofs.Linking.Refusals

/-!
# Stores are loaded one after another

The segments of a module are sorted by the index of their store, and the stores are loaded in the order of their indices.
The same is done with tables and with memories, so it is stated once, for an array of stores and for any way to come from an
index to an address.  `LoadsUpTo` is the relation between the array at the start and the array when the indices below some
number are done.

## What one step does

A step replaces the store at one address by the same store with the segments of one index (`Linear.filled_of_load`).  By
induction over the steps, a store whose address no step has named is as it was (`LoadsUpTo.getElem?_eq`), and one whose
address a single step has named is what that step has made of it (`LoadsUpTo.exists_load`).  Two indices may well lead to
one address, and then neither says anything.  An index that is not a word has no segments, and what is done for it does not
count.

## What an instantiation does

`Instance.LoadsTo` puts the two kinds together: the tables below `i` and the memories below `j` are loaded, and globals are
left alone.  An instantiation goes through these states, and wherever it stops it is in one of them
(`Compiled.ends_instantiate_loads`).
-/

namespace FlatWasm

/-! ## A store with all of its segments -/

namespace Linear

variable {s t : Linear} {segments : List Segment} {globals : GlobalReader} {mayGrow : Bool}
  {placed : List Placed} {growth : Option Growth}

/-- The store, with as many more units as the bytes need, and the bytes written over it. -/
def Filled (s : Linear) (placed : List Placed) (t : Linear) : Prop :=
  (if lastStop placed ≤ s.length then s
    else s.extend (lastStop placed ⌈/⌉ s.unit.toNat * s.unit.toNat)).Overlaid placed t

theorem load_nil (s : Linear) (globals : GlobalReader) (mayGrow : Bool) :
    s.load [] globals mayGrow = .ok (none, s) :=
  rfl

theorem exists_arePlaced_of_load (h : s.load segments globals mayGrow = .ok (growth, t)) :
    ∃ placed, ArePlaced globals segments placed := by
  rcases unread_or_arePlaced globals segments with ⟨e, hfirst, he⟩ | hplaced
  · rw [load_of_unread hfirst he] at h
    cases h
  · exact hplaced

theorem eq_putAll_of_load (h : s.load segments globals mayGrow = .ok (growth, t))
    (hplaced : ArePlaced globals segments placed) (hfits : lastStop placed ≤ s.length) :
    t = s.putAll placed := by
  rw [load_of_arePlaced hplaced, if_pos hfits] at h
  cases h
  rfl

/-- **What loading answers with is the store with all of its segments.** -/
theorem filled_of_load (h : s.load segments globals mayGrow = .ok (growth, t))
    (hplaced : ArePlaced globals segments placed) : s.Filled placed t := by
  rw [Filled]
  by_cases hfits : lastStop placed ≤ s.length
  · rw [if_pos hfits, eq_putAll_of_load h hplaced hfits]
    exact overlaid_putAll (lastStop_le_iff.mp hfits)
  rw [if_neg hfits]
  rw [load_of_arePlaced hplaced, if_neg hfits] at h
  cases mayGrow with
  | false => cases h
  | true =>
    obtain ⟨⟨g, u⟩, hgrow, heq⟩ := Except.map_eq_ok_iff.mp h
    cases heq
    obtain ⟨hsize, hafter, -, rfl, hlength⟩ := of_growFor hgrow
    rw [← hafter]
    refine overlaid_putAll (lastStop_le_iff.mp ?_)
    rw [hlength, hafter]
    exact (le_ceilDiv_mul (unit_pos_of_size hsize) _).1

end Linear

/-! ## Runs -/

/-- The stores with an index below a number are loaded, one after another.  `own` gives the segments of an index. -/
inductive LoadsUpTo (address? : ℕ → Option Address) (own : ℕ → List Segment)
    (globals : GlobalReader) (mayGrow : Bool) (xs : Array Linear) : ℕ → Array Linear → Prop where
  | zero : LoadsUpTo address? own globals mayGrow xs 0 xs
  | succ {i : ℕ} {ys : Array Linear} {a : Address} {s t : Linear} {growth : Option Growth}
      (h : LoadsUpTo address? own globals mayGrow xs i ys) (ha : address? i = some a)
      (hs : ys[a]? = some s) (hload : s.load (own i) globals mayGrow = .ok (growth, t)) :
      LoadsUpTo address? own globals mayGrow xs (i + 1) (ys.setIfInBounds a t)

namespace LoadsUpTo

variable {address? : ℕ → Option Address} {own : ℕ → List Segment} {globals : GlobalReader}
  {mayGrow : Bool} {xs ys : Array Linear} {n k : ℕ} {a : Address}

theorem getElem?_set_self {s t : Linear} (h : ys[a]? = some s) :
    (ys.setIfInBounds a t)[a]? = some t :=
  Array.getElem?_setIfInBounds_self_of_lt (Array.getElem?_eq_some_iff.mp h).1

/-- **A store that no step has segments for is as it was.** -/
theorem getElem?_eq (h : LoadsUpTo address? own globals mayGrow xs n ys)
    (ha : ∀ i < n, address? i = some a → own i = []) : ys[a]? = xs[a]? := by
  induction h with
  | zero => rfl
  | @succ i ys b s t growth _ hb hs hload ih =>
    have hbefore := ih fun j hj => ha j (hj.trans i.lt_succ_self)
    by_cases hab : b = a
    · subst hab
      rw [ha i i.lt_succ_self hb, Linear.load_nil] at hload
      cases hload
      rw [getElem?_set_self hs, ← hbefore, hs]
    · rw [Array.getElem?_setIfInBounds_ne hab, hbefore]

/-- **A store that one step alone has segments for is what this step makes of it.** -/
theorem exists_load (h : LoadsUpTo address? own globals mayGrow xs n ys) (hk : k < n)
    (hka : address? k = some a)
    (hone : ∀ i < n, address? i = some a → own i ≠ [] → i = k) :
    ∃ s t growth, xs[a]? = some s ∧ ys[a]? = some t ∧
      s.load (own k) globals mayGrow = .ok (growth, t) := by
  induction h with
  | zero => exact absurd hk (Nat.not_lt_zero k)
  | @succ i ys b s t growth hrun hb hs hload ih =>
    rcases Nat.lt_succ_iff_lt_or_eq.mp hk with hlt | rfl
    · obtain ⟨s₀, t₀, growth₀, hs₀, ht₀, hload₀⟩ :=
        ih hlt fun j hj => hone j (hj.trans i.lt_succ_self)
      refine ⟨s₀, t₀, growth₀, hs₀, ?_, hload₀⟩
      by_cases hab : b = a
      · -- the step has nothing to write, for it is not the one
        subst hab
        have hnil : own i = [] := by
          by_contra hne
          exact hlt.ne' (hone i i.lt_succ_self hb hne)
        rw [hnil, Linear.load_nil] at hload
        cases hload
        rw [getElem?_set_self hs, ← hs, ht₀]
      · rw [Array.getElem?_setIfInBounds_ne hab, ht₀]
    · cases hka.symm.trans hb
      have hbefore : ys[a]? = xs[a]? := hrun.getElem?_eq fun j hj hja => by
        by_contra hne
        exact hj.ne (hone j (hj.trans k.lt_succ_self) hja hne)
      exact ⟨s, t, growth, hbefore ▸ hs, getElem?_set_self hs, hload⟩

end LoadsUpTo

/-! ## Segments by their store -/

/-- What becomes of a segment of a module: the bytes that it writes, and where. -/
def Places {α : Type} (make : α → Except Segment.Error Segment) (globals : GlobalReader) (x : α)
    (w : Placed) : Prop :=
  ∃ segment, make x = .ok segment ∧ segment.place globals = .ok w

theorem forall₂_trans {α β γ : Type} {R : α → β → Prop} {S : β → γ → Prop} {T : α → γ → Prop}
    {as : List α} {bs : List β} {cs : List γ} (hT : ∀ a b c, R a b → S b c → T a c)
    (h : List.Forall₂ R as bs) (h' : List.Forall₂ S bs cs) : List.Forall₂ T as cs := by
  induction h generalizing cs with
  | nil =>
    rw [List.forall₂_nil_left_iff.mp h']
    exact .nil
  | cons hab _ ih =>
    obtain ⟨c, cs', hbc, hrest, rfl⟩ := List.forall₂_cons_left_iff.mp h'
    exact .cons (hT _ _ _ hab hbc) (ih hrest)

namespace Instance

section Sections

variable {α : Type} {index : α → UInt32} {make : α → Except Segment.Error Segment} {items : List α}
  {segments : List (UInt32 × Segment)} {globals : GlobalReader} {placed : List Placed}

/-- The segments that the items of a section become, each with the index of its store. -/
def Makes (index : α → UInt32) (make : α → Except Segment.Error Segment) :
    List α → List (UInt32 × Segment) → Prop :=
  List.Forall₂ fun x s => s.1 = index x ∧ make x = .ok s.2

/-- The segments of a store become, in order, of the items that name it. -/
theorem Makes.forall₂_own (h : Makes index make items segments) (k : UInt32) :
    List.Forall₂ (fun x segment => make x = .ok segment) (items.filter (index · = k))
      (ownSegments segments k.toNat) := by
  have hfilter : List.Forall₂ (fun x s => s.1 = index x ∧ make x = .ok s.2)
      (items.filter (index · = k)) (segments.filter fun s => s.1.toNat = k.toNat) := by
    refine List.rel_filter (fun x s hxs => ?_) h
    simp only [decide_eq_true_eq, UInt32.toNat_inj, hxs.1]
  exact List.forall₂_map_right_iff.mpr (hfilter.imp fun x s hxs => hxs.2)

theorem Makes.forall₂_places (h : Makes index make items segments) {k : UInt32}
    (hplaced : ArePlaced globals (ownSegments segments k.toNat) placed) :
    List.Forall₂ (Places make globals) (items.filter (index · = k)) placed :=
  forall₂_trans (fun _ segment _ hmake hw => ⟨segment, hmake, hw⟩) (h.forall₂_own k) hplaced

theorem makes_of_mapM {error : ℕ → Segment.Error → LinkError}
    (h : items.zipIdx.mapM (fun x => do
      return (index x.1, ← orRefuse (error x.2) (make x.1))) = .ok segments) :
    Makes index make items segments := by
  have hall := Except.mapM_eq_ok_iff.mp h
  rw [Makes, ← List.zipIdx_map_fst 0 items, List.forall₂_map_left_iff]
  refine hall.imp fun x s hs => ?_
  obtain ⟨segment, hsegment, hs⟩ := Except.bind_eq_ok_iff.mp hs
  cases hs
  exact ⟨rfl, orRefuse_eq_ok_iff.mp hsegment⟩

end Sections

theorem makes_of_elementSegments {elements : List ElementSegment}
    {segments : List (UInt32 × Segment)} (h : elementSegments elements = .ok segments) :
    Makes ElementSegment.table Segment.ofElements elements segments :=
  makes_of_mapM h

theorem makes_of_dataSegments {data : List DataSegment} {segments : List (UInt32 × Segment)}
    (h : dataSegments data = .ok segments) :
    Makes DataSegment.memory Segment.ofData data segments :=
  makes_of_mapM h

/-- Only words are indices of segments. -/
theorem lt_of_ownSegments_ne_nil {segments : List (UInt32 × Segment)} {i : ℕ}
    (h : ownSegments segments i ≠ []) : i < 2 ^ 32 := by
  obtain ⟨segment, hsegment⟩ := List.exists_mem_of_ne_nil _ h
  obtain ⟨s, hs, -⟩ := List.mem_map.mp hsegment
  have hi : s.1.toNat = i := of_decide_eq_true (List.mem_filter.mp hs).2
  exact hi ▸ s.1.toNat_lt

end Instance

/-! ## States of an instantiation -/

/-- The tables, as stores. -/
def Pool.tableStores (p : Pool) : Array Linear :=
  p.tables.map Table.store

/-- The memories, as stores. -/
def Pool.memoryStores (p : Pool) : Array Linear :=
  p.memories.map Memory.store

namespace Instance

variable {inst : Instance} {config : Config} {elements data : List (UInt32 × Segment)} {p q : Pool}
  {i j : ℕ} {a : Address} {growth : Option Growth} {store : Linear}

/-- Offsets are read from globals alone. -/
theorem offsetValue_congr (h : q.globals = p.globals) : inst.offsetValue q = inst.offsetValue p := by
  funext k
  rw [offsetValue, offsetValue]
  unfold global?
  rw [h]

/-- From the pool `p` on, the tables below `i` and the memories below `j` have been loaded. -/
structure LoadsTo (inst : Instance) (config : Config) (elements data : List (UInt32 × Segment))
    (p : Pool) (i j : ℕ) (q : Pool) : Prop where
  tables : LoadsUpTo (fun k => inst.tableAt? (UInt32.ofNat k)) (ownSegments elements)
    (inst.offsetValue p) config.growsForSegments p.tableStores i q.tableStores
  memories : LoadsUpTo (fun k => inst.memoryAt? (UInt32.ofNat k)) (ownSegments data)
    (inst.offsetValue p) config.growsForSegments p.memoryStores j q.memoryStores
  globals : q.globals = p.globals

theorem loadsTo_refl (inst : Instance) (config : Config) (elements data : List (UInt32 × Segment))
    (p : Pool) : inst.LoadsTo config elements data p 0 0 p :=
  ⟨.zero, .zero, rfl⟩

/-- One more table. -/
theorem LoadsTo.table (h : inst.LoadsTo config elements data p i j q) {t : Table}
    (ha : inst.tableAt? (UInt32.ofNat i) = some a) (ht : q.tables[a]? = some t)
    (hload : inst.loadStore config "table" i q t.store (ownSegments elements i) =
      .ok (growth, store)) :
    inst.LoadsTo config elements data p (i + 1) j (q.setTable a ⟨store⟩) where
  tables := by
    have hstore : q.tableStores[a]? = some t.store := by
      rw [Pool.tableStores, Array.getElem?_map, ht]
      rfl
    have hset : (q.setTable a ⟨store⟩).tableStores = q.tableStores.setIfInBounds a store := by
      rw [Pool.tableStores, Pool.setTable, Array.map_setIfInBounds]
      rfl
    rw [loadStore, offsetValue_congr h.globals] at hload
    rw [hset]
    exact .succ h.tables ha hstore (Except.mapError_eq_ok_iff.mp hload)
  memories := h.memories
  globals := h.globals

/-- One more memory. -/
theorem LoadsTo.memory (h : inst.LoadsTo config elements data p i j q) {m : Memory}
    (ha : inst.memoryAt? (UInt32.ofNat j) = some a) (hm : q.memories[a]? = some m)
    (hload : inst.loadStore config "memory" j q m.store (ownSegments data j) =
      .ok (growth, store)) :
    inst.LoadsTo config elements data p i (j + 1) (q.setMemory a ⟨store⟩) where
  tables := h.tables
  memories := by
    have hstore : q.memoryStores[a]? = some m.store := by
      rw [Pool.memoryStores, Array.getElem?_map, hm]
      rfl
    have hset : (q.setMemory a ⟨store⟩).memoryStores = q.memoryStores.setIfInBounds a store := by
      rw [Pool.memoryStores, Pool.setMemory, Array.map_setIfInBounds]
      rfl
    rw [loadStore, offsetValue_congr h.globals] at hload
    rw [hset]
    exact .succ h.memories ha hstore (Except.mapError_eq_ok_iff.mp hload)
  globals := h.globals

end Instance

/-! ## Where an instantiation stops -/

/-- The segments of a store are refused, unless there is a defect. -/
inductive Failure.IsOfStore (kind : String) (i : ℕ) : Failure LinkError → Prop where
  | refused (cause : LoadError) : IsOfStore kind i (.error (.segments kind i cause))
  | defect (d : Defect) : IsOfStore kind i (.defect d)

theorem Failure.isOfStore_of_present {α : Type} {x : Option α} {kind : String} {i : ℕ}
    {e : Failure LinkError} (h : present x = .error e) : e.IsOfStore kind i := by
  cases x with
  | some a => cases h
  | none =>
    cases h
    exact .defect _

/-- An error that was put in a context is an error in that context, or a defect. -/
theorem Failure.cases_of_mapError {ε ε' α : Type} {f : ε → ε'} {x : Except (Failure ε) α}
    {e : Failure ε'} (h : x.mapError (Failure.map f) = .error e) :
    (∃ cause, e = .error (f cause)) ∨ ∃ d, e = .defect d := by
  rcases x with (cause | d) | a
  · exact .inl ⟨cause, (Except.error.inj h).symm⟩
  · exact .inr ⟨d, (Except.error.inj h).symm⟩
  · cases h

theorem Instance.isOfStore_of_loadStore {inst : Instance} {config : Config} {q : Pool} {α : Type}
    {x : Option α} {store : α → Linear} {segments : List Segment} {kind : String} {i : ℕ}
    {e : Failure LinkError}
    (h : (present x >>= fun a => inst.loadStore config kind i q (store a) segments) = .error e) :
    e.IsOfStore kind i := by
  cases x with
  | none =>
    cases h
    exact .defect _
  | some a =>
    rcases Failure.cases_of_mapError h with ⟨cause, rfl⟩ | ⟨d, rfl⟩
    · exact .refused cause
    · exact .defect d

namespace Compiled

variable {m : Module} {config config' : Config} {stopped canceled : Bool} {c : Compiled}
  {imports : Imports} {p q : Pool} {r : Bound} {s : Allotment}
  {elements data : List (UInt32 × Segment)}

/-- What a module is instantiated with, and what its segments are. -/
structure Prepares (c : Compiled) (config : Config) (imports : Imports) (p : Pool) (r : Bound)
    (s : Allotment) (elements data : List (UInt32 × Segment)) : Prop where
  allots : c.Allots config imports p r s
  elements : Instance.elementSegments c.module.elements = .ok elements
  data : Instance.dataSegments c.module.data = .ok data

/-- The segments of a compiled module can be made. -/
theorem exists_prepares (hc : m.compile config stopped = .ok c)
    (hs : c.Allots config' imports p r s) :
    ∃ elements data, c.Prepares config' imports p r s elements data := by
  obtain ⟨hoffsets, hoffsets'⟩ := Module.offsets_of_compile hc
  obtain ⟨elements, helements, -⟩ := Instance.exists_elementSegments hoffsets
  obtain ⟨data, hdata, -⟩ := Instance.exists_dataSegments hoffsets'
  exact ⟨elements, data, hs, helements, hdata⟩

/-- How an instantiation fails, and the pool that it leaves. -/
inductive FailsAt (c : Compiled) (config : Config) (imports : Imports) (p : Pool)
    (canceled : Bool) : Failure LinkError → Pool → Prop where
  | early {e : Failure LinkError} {q : Pool} (h : c.Stops config imports p canceled e q) :
      FailsAt c config imports p canceled e q
  | table {r : Bound} {s : Allotment} {elements data : List (UInt32 × Segment)} {i : ℕ}
      {e : Failure LinkError} {q : Pool} (hs : c.Prepares config imports p r s elements data)
      (h : (c.instanceOf r p s).LoadsTo config elements data (p.allot s) i 0 q)
      (he : e.IsOfStore "table" i) : FailsAt c config imports p canceled e q
  | memory {r : Bound} {s : Allotment} {elements data : List (UInt32 × Segment)} {j : ℕ}
      {e : Failure LinkError} {q : Pool} (hs : c.Prepares config imports p r s elements data)
      (h : (c.instanceOf r p s).LoadsTo config elements data (p.allot s) c.space.tables.size j q)
      (he : e.IsOfStore "memory" j) : FailsAt c config imports p canceled e q

theorem ends_loadTables_loads (hs : c.Prepares config imports p r s elements data) {w : World}
    (hw : (c.instanceOf r p s).LoadsTo config elements data (p.allot s) 0 0 w.pool) :
    ((c.instanceOf r p s).loadTables config).Ends w
      (fun _ w' => (c.instanceOf r p s).LoadsTo config elements data (p.allot s)
        c.space.tables.size 0 w'.pool)
      (fun e w' => c.FailsAt config imports p canceled e w'.pool) := by
  refine Instance.ends_loadTables (I := fun i w => (c.instanceOf r p s).LoadsTo config elements data
    (p.allot s) i 0 w.pool) hw (fun e he => ?_) (fun i w e _ hw he => ?_)
    fun segments i a w hsegments _ hw ha => ?_
  · cases hs.elements.symm.trans he
  · exact .table hs hw (Failure.isOfStore_of_present he)
  · cases hs.elements.symm.trans hsegments
    exact Instance.ends_loadTable (fun t growth store ht hload => hw.table ha ht hload)
      fun e he => .table hs hw (Instance.isOfStore_of_loadStore he)

theorem ends_loadMemories_loads (hs : c.Prepares config imports p r s elements data) {w : World}
    (hw : (c.instanceOf r p s).LoadsTo config elements data (p.allot s) c.space.tables.size 0
      w.pool) :
    ((c.instanceOf r p s).loadMemories config).Ends w
      (fun _ w' => (c.instanceOf r p s).LoadsTo config elements data (p.allot s)
        c.space.tables.size c.space.memories.size w'.pool)
      (fun e w' => c.FailsAt config imports p canceled e w'.pool) := by
  refine Instance.ends_loadMemories (I := fun j w => (c.instanceOf r p s).LoadsTo config elements
    data (p.allot s) c.space.tables.size j w.pool) hw (fun e he => ?_) (fun j w e _ hw he => ?_)
    fun segments j a w hsegments _ hw ha => ?_
  · cases hs.data.symm.trans he
  · exact .memory hs hw (Failure.isOfStore_of_present he)
  · cases hs.data.symm.trans hsegments
    exact Instance.ends_loadMemory (fun m growth store hm hload => hw.memory ha hm hload)
      fun e he => .memory hs hw (Instance.isOfStore_of_loadStore he)

/-- **Every instantiation of a compiled module ends in one of the states that it goes through.** -/
theorem ends_instantiate_loads (hc : m.compile config stopped = .ok c) (log : List Event) :
    (c.instantiate config' imports canceled).Ends ⟨p, log⟩
      (fun inst w => ∃ r s elements data, c.Prepares config' imports p r s elements data ∧
        inst = c.instanceOf r p s ∧ inst.LoadsTo config' elements data (p.allot s)
          c.space.tables.size c.space.memories.size w.pool)
      (fun e w => c.FailsAt config' imports p canceled e w.pool) := by
  refine (ends_instantiate
    (Q := fun r s w => ∃ elements data, c.Prepares config' imports p r s elements data ∧
      (c.instanceOf r p s).LoadsTo config' elements data (p.allot s) c.space.tables.size 0 w.pool)
    (R := fun r s w => ∃ elements data, c.Prepares config' imports p r s elements data ∧
      (c.instanceOf r p s).LoadsTo config' elements data (p.allot s) c.space.tables.size
        c.space.memories.size w.pool)
    (fun e q hq => .early hq) (fun r s hs => ?_) (fun r s w hs hw => ?_)).mono ?_
  · obtain ⟨elements, data, hs⟩ := exists_prepares hc hs
    exact (ends_loadTables_loads hs (Instance.loadsTo_refl _ _ _ _ _)).mono fun _ w hw =>
      ⟨elements, data, hs, hw⟩
  · obtain ⟨elements, data, hs, hw⟩ := hw
    exact (ends_loadMemories_loads hs hw).mono fun _ w hw => ⟨elements, data, hs, hw⟩
  · rintro inst w ⟨r, s, w', -, rfl, ⟨elements, data, hs, hw'⟩, rfl⟩
    exact ⟨r, s, elements, data, hs, rfl, hw'⟩

theorem failsAt_of_link {e : Failure LinkError} {log : List Event}
    (hc : m.compile config stopped = .ok c)
    (h : c.link config' imports p canceled = (.error e, q, log)) :
    c.FailsAt config' imports p canceled e q := by
  have hends : (c.instantiate config' imports canceled).Ends ⟨p, []⟩ _ _ :=
    ends_instantiate_loads hc []
  rcases hrun : (c.instantiate config' imports canceled).run { pool := p } with ⟨result, w⟩
  rw [link_eq hrun] at h
  cases h
  exact hends.failure e w hrun

theorem loads_of_link {inst : Instance} {log : List Event} (hc : m.compile config stopped = .ok c)
    (h : c.link config' imports p canceled = (.ok inst, q, log)) :
    ∃ r s elements data, c.Prepares config' imports p r s elements data ∧
      inst = c.instanceOf r p s ∧ inst.LoadsTo config' elements data (p.allot s)
        c.space.tables.size c.space.memories.size q := by
  have hends : (c.instantiate config' imports canceled).Ends ⟨p, []⟩ _ _ :=
    ends_instantiate_loads hc []
  rcases hrun : (c.instantiate config' imports canceled).run { pool := p } with ⟨result, w⟩
  rw [link_eq hrun] at h
  cases h
  exact hends.answer inst w hrun

end Compiled

end FlatWasm
