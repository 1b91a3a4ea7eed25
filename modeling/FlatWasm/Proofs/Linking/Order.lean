import Mathlib
import FlatWasm.Proofs.Linking.Interruption

/-!
# The order in which segments are written

Where all segments fit, an instantiation is a sequence of writes and nothing else.  The writes do not come in the order in
which a module lists its segments: they are sorted by the index of their store first, and only the segments of one index
stay in the order of the section (`byIndex`).

## When the order can be seen

A write at one address does not touch another, so only the order of the writes at each address matters
(`getElem?_performAll`), and sorting keeps it where no two indices share an address (`performAll_byIndex`).  An embedder
that binds two imports to one memory can see the difference: of two segments for the same byte, the one with the greater index
is the one that stays, even if the module lists it first.
-/

namespace FlatWasm

/-! ## Writes -/

/-- Bytes for a store, known by its index and by its address. -/
structure Write where
  index : UInt32
  address : Address
  placed : Placed
deriving DecidableEq, Repr

/-- One write. -/
def Write.perform (xs : Array Linear) (w : Write) : Array Linear :=
  xs.modify w.address fun s => s.put w.placed.position w.placed.payload

/-- Writes, one at a time. -/
def performAll (xs : Array Linear) (ws : List Write) : Array Linear :=
  ws.foldl Write.perform xs

/-- The writes for the first index, then those for the next one, up to `n`. -/
def byIndex (n : ℕ) (ws : List Write) : List Write :=
  (List.range n).flatMap fun k => ws.filter fun w => w.index.toNat = k

/-- Each write is within its store. -/
def Fits (xs : Array Linear) (ws : List Write) : Prop :=
  ∀ w ∈ ws, ∀ s, xs[w.address]? = some s → w.placed.stop ≤ s.length

theorem performAll_append (xs : Array Linear) (ws ws' : List Write) :
    performAll xs (ws ++ ws') = performAll (performAll xs ws) ws' :=
  List.foldl_append

theorem byIndex_succ (n : ℕ) (ws : List Write) :
    byIndex (n + 1) ws = byIndex n ws ++ ws.filter fun w => w.index.toNat = n := by
  rw [byIndex, List.range_succ, List.flatMap_append, List.flatMap_singleton]
  rfl

theorem Linear.length_putAll (s : Linear) (placed : List Placed) :
    (s.putAll placed).length = s.length := by
  induction placed generalizing s with
  | nil => rfl
  | cons w placed ih => exact (ih (s.put w.position w.payload)).trans (s.length_put _ _)

/-- **Of each store, only the writes at its address matter, in their order.** -/
theorem getElem?_performAll (xs : Array Linear) (ws : List Write) (a : Address) :
    (performAll xs ws)[a]? =
      xs[a]?.map fun s => s.putAll ((ws.filter fun w => w.address = a).map Write.placed) := by
  induction ws generalizing xs with
  | nil => exact Option.map_id'.symm
  | cons w ws ih =>
    rw [show performAll xs (w :: ws) = performAll (w.perform xs) ws from rfl, ih, Write.perform,
      Array.getElem?_modify]
    by_cases hw : w.address = a
    · rw [if_pos hw, List.filter_cons_of_pos (by simpa using hw), Option.map_map]
      rfl
    · rw [if_neg hw, List.filter_cons_of_neg (by simpa using hw)]

/-- Writes at one address are one write of them all. -/
theorem performAll_of_forall_eq {xs : Array Linear} {ws : List Write} {a : Address} {s : Linear}
    (hs : xs[a]? = some s) (hws : ∀ w ∈ ws, w.address = a) :
    performAll xs ws = xs.setIfInBounds a (s.putAll (ws.map Write.placed)) := by
  refine Array.ext_getElem? fun b => ?_
  rw [getElem?_performAll]
  by_cases hab : a = b
  · subst hab
    have hall : (ws.filter fun w => w.address = a) = ws := by
      refine List.filter_eq_self.mpr fun w hw => ?_
      simpa using hws w hw
    rw [LoadsUpTo.getElem?_set_self hs, hs, hall]
    rfl
  · have hnone : (ws.filter fun w => w.address = b) = [] := by
      refine List.filter_eq_nil_iff.mpr fun w hw => ?_
      simpa [hws w hw] using hab
    rw [Array.getElem?_setIfInBounds_ne hab, hnone]
    exact Option.map_id'

/-- Where an address has one index, sorting by index keeps the order of the writes at each address. -/
theorem filter_byIndex {ws : List Write}
    (hone : ∀ w ∈ ws, ∀ w' ∈ ws, w.address = w'.address → w.index = w'.index) (n : ℕ)
    (a : Address) : ((byIndex n ws).filter fun w => w.address = a) =
      ws.filter fun w => w.address = a ∧ w.index.toNat < n := by
  induction n with
  | zero => simp [byIndex]
  | succ n ih =>
    rw [byIndex_succ, List.filter_append, ih, List.filter_filter]
    by_cases hn : ∃ w ∈ ws, w.address = a ∧ w.index.toNat = n
    · -- then all writes at the address have this index, and none has come before
      obtain ⟨w₀, hw₀, ha, rfl⟩ := hn
      have heq : ∀ w ∈ ws, w.address = a → w.index = w₀.index := fun w hw haw =>
        hone w hw w₀ hw₀ (haw.trans ha.symm)
      have hbefore : (ws.filter fun w => w.address = a ∧ w.index.toNat < w₀.index.toNat) = [] := by
        refine List.filter_eq_nil_iff.mpr fun w hw => ?_
        by_cases haw : w.address = a
        · simp [heq w hw haw]
        · simp [haw]
      rw [hbefore, List.nil_append]
      refine List.filter_congr fun w hw => ?_
      by_cases haw : w.address = a
      · simp [haw, heq w hw haw]
      · simp [haw]
    · have hne : ∀ w ∈ ws, w.address = a → w.index.toNat ≠ n := fun w hw haw h =>
        hn ⟨w, hw, haw, h⟩
      have hnow : (ws.filter fun w => decide (w.address = a) && decide (w.index.toNat = n)) = [] := by
        refine List.filter_eq_nil_iff.mpr fun w hw => ?_
        simpa using hne w hw
      rw [hnow, List.append_nil]
      refine List.filter_congr fun w hw => ?_
      by_cases haw : w.address = a
      · have hlt : w.index.toNat < n ↔ w.index.toNat < n + 1 := by
          have := hne w hw haw
          omega
        simp [haw, hlt]
      · simp [haw]

/-- **Where an address has one index, sorting by index does not matter.** -/
theorem performAll_byIndex {ws : List Write} {n : ℕ} (hlt : ∀ w ∈ ws, w.index.toNat < n)
    (hone : ∀ w ∈ ws, ∀ w' ∈ ws, w.address = w'.address → w.index = w'.index)
    (xs : Array Linear) : performAll xs (byIndex n ws) = performAll xs ws := by
  refine Array.ext_getElem? fun a => ?_
  have hfilter : ((byIndex n ws).filter fun w => w.address = a) =
      ws.filter fun w => w.address = a := by
    rw [filter_byIndex hone]
    exact List.filter_congr fun w hw => by simp [hlt w hw]
  rw [getElem?_performAll, getElem?_performAll, hfilter]

/-! ## Runs are writes -/

/-- What an item of a section writes, and where. -/
structure Writes {α : Type} (indexOf : α → UInt32) (make : α → Except Segment.Error Segment)
    (address? : UInt32 → Option Address) (globals : GlobalReader) (x : α) (w : Write) : Prop where
  index : w.index = indexOf x
  address : address? (indexOf x) = some w.address
  placed : Places make globals x w.placed

section Runs

variable {α : Type} {indexOf : α → UInt32} {make : α → Except Segment.Error Segment}
  {address? : UInt32 → Option Address} {globals : GlobalReader} {items : List α}
  {segments : List (UInt32 × Segment)} {ws : List Write}

/-- A segment is written in one way. -/
theorem rightUnique_writes : Relator.RightUnique (Writes indexOf make address? globals) := by
  intro x w w' h h'
  obtain ⟨segment, hmake, hplace⟩ := h.placed
  obtain ⟨segment', hmake', hplace'⟩ := h'.placed
  obtain rfl := Except.ok.inj (hmake.symm.trans hmake')
  obtain ⟨index, address, placed⟩ := w
  obtain ⟨index', address', placed'⟩ := w'
  have hindex : index = index' := h.index.trans h'.index.symm
  have haddress : address = address' := Option.some.inj (h.address.symm.trans h'.address)
  have hplaced : placed = placed' := Except.ok.inj (hplace.symm.trans hplace')
  rw [hindex, haddress, hplaced]

theorem address_of_mem (hws : List.Forall₂ (Writes indexOf make address? globals) items ws)
    {w : Write} (hw : w ∈ ws) : address? w.index = some w.address := by
  obtain ⟨k, hk⟩ := List.mem_iff_getElem?.mp hw
  obtain ⟨x, -, hx⟩ := exists_getElem?_of_forall₂ hws hk
  rw [hx.index]
  exact hx.address

/-- The segments of an index have the places of the writes with this index. -/
theorem arePlaced_own (hmakes : Instance.Makes indexOf make items segments)
    (hws : List.Forall₂ (Writes indexOf make address? globals) items ws) (i : ℕ) :
    ArePlaced globals (Instance.ownSegments segments i)
      ((ws.filter fun w => w.index.toNat = i).map Write.placed) := by
  have hall : List.Forall₂ (fun s w => w.index = s.1 ∧ s.2.place globals = .ok w.placed) segments
      ws := by
    refine forall₂_trans (fun s x w hs hw => ?_) hmakes.flip hws
    obtain ⟨segment, hmake, hplace⟩ := hw.placed
    obtain rfl := Except.ok.inj (hs.2.symm.trans hmake)
    exact ⟨hw.index.trans hs.1.symm, hplace⟩
  have hfilter : List.Forall₂ (fun s w => w.index = s.1 ∧ s.2.place globals = .ok w.placed)
      (segments.filter fun s => s.1.toNat = i) (ws.filter fun w => w.index.toNat = i) := by
    refine List.rel_filter (fun s w hsw => ?_) hall
    simp only [hsw.1]
  exact List.forall₂_map_left_iff.mpr (List.forall₂_map_right_iff.mpr
    (hfilter.imp fun s w hsw => hsw.2))

/-- **A run in which everything fits is the sequence of its writes, sorted by index.** -/
theorem LoadsUpTo.eq_performAll {mayGrow : Bool} {xs ys : Array Linear} {n : ℕ}
    (h : LoadsUpTo (fun k => address? (UInt32.ofNat k)) (Instance.ownSegments segments) globals
      mayGrow xs n ys)
    (hmakes : Instance.Makes indexOf make items segments)
    (hws : List.Forall₂ (Writes indexOf make address? globals) items ws) (hfits : Fits xs ws) :
    ys = performAll xs (byIndex n ws) := by
  induction h with
  | zero => rfl
  | @succ i ys a s t growth _ ha hs hload ih =>
    have hplaced := arePlaced_own hmakes hws i
    have haddress : ∀ w ∈ ws.filter fun w => w.index.toNat = i, w.address = a := by
      intro w hw
      obtain ⟨hw, hi⟩ := List.mem_filter.mp hw
      have hword : UInt32.ofNat i = w.index := by
        rw [← of_decide_eq_true hi, UInt32.ofNat_toNat]
      rw [hword] at ha
      exact Option.some.inj ((address_of_mem hws hw).symm.trans ha)
    -- writes do not change the length of the store, so what has fitted at the start fits now
    obtain ⟨s₀, hs₀, rfl⟩ : ∃ s₀, xs[a]? = some s₀ ∧ s₀.putAll _ = s := by
      rw [ih, getElem?_performAll] at hs
      exact Option.map_eq_some_iff.mp hs
    have hstop : lastStop ((ws.filter fun w => w.index.toNat = i).map Write.placed) ≤
        (s₀.putAll (((byIndex i ws).filter fun w => w.address = a).map Write.placed)).length := by
      rw [Linear.length_putAll]
      refine lastStop_le_iff.mpr fun placed hp => ?_
      obtain ⟨w, hw, rfl⟩ := List.mem_map.mp hp
      refine hfits w (List.mem_of_mem_filter hw) s₀ ?_
      rw [haddress w hw, hs₀]
    rw [Linear.eq_putAll_of_load hload hplaced hstop, byIndex_succ, performAll_append, ← ih,
      performAll_of_forall_eq hs haddress]

/-- Segments whose stores are there and whose offsets can be read are written somewhere. -/
theorem exists_writes (hmakes : Instance.Makes indexOf make items segments)
    (hindex : ∀ x ∈ items, ∃ a, address? (indexOf x) = some a)
    (hplace : ∀ s ∈ segments, ∃ w, s.2.place globals = .ok w) :
    ∃ ws, List.Forall₂ (Writes indexOf make address? globals) items ws := by
  induction hmakes with
  | nil => exact ⟨[], .nil⟩
  | @cons x s items segments hxs _ ih =>
    obtain ⟨⟨a, ha⟩, hindex⟩ := List.forall_mem_cons.mp hindex
    obtain ⟨⟨w, hw⟩, hplace⟩ := List.forall_mem_cons.mp hplace
    obtain ⟨ws, hws⟩ := ih hindex hplace
    exact ⟨⟨indexOf x, a, w⟩ :: ws, .cons ⟨rfl, ha, s.2, hxs.2, hw⟩ hws⟩

end Runs

/-! ## Instantiations -/

namespace Instance

/-- What an element segment writes, with the globals of a pool. -/
def WritesElement (inst : Instance) (p : Pool) : ElementSegment → Write → Prop :=
  Writes ElementSegment.table Segment.ofElements inst.tableAt? (inst.offsetValue p)

/-- What a data segment writes, with the globals of a pool. -/
def WritesData (inst : Instance) (p : Pool) : DataSegment → Write → Prop :=
  Writes DataSegment.memory Segment.ofData inst.memoryAt? (inst.offsetValue p)

variable {inst : Instance} {config : Config} {imports : Imports} {p q : Pool}

/-- A segment whose offset was checked has a place. -/
theorem Locates.exists_place (h : inst.Locates config imports p q)
    (hl : inst.compiled.space.IsLaidOut inst.compiled.module) {segment : Segment}
    (ho : segment.offset.IsReadable inst.compiled.space) :
    ∃ w, segment.place (inst.offsetValue q) = .ok w := by
  obtain ⟨placed, hplaced⟩ : ∃ placed, [segment].mapM (Segment.place (inst.offsetValue q)) =
      .ok placed := by
    refine Linear.exists_place fun g hg i hi => ?_
    rw [List.mem_singleton.mp hg] at hi
    exact Compiled.exists_offsetValue h hl ho hi
  obtain ⟨w, -, hw, -, -⟩ := List.forall₂_cons_left_iff.mp (arePlaced_iff.mpr hplaced)
  exact ⟨w, hw⟩

theorem lt_size_of_tableAt? {k : UInt32} {a : Address} (h : inst.tableAt? k = some a) :
    k.toNat < inst.compiled.space.tables.size := by
  obtain ⟨found, hfound, -⟩ := Option.bind_eq_some_iff.mp h
  have hget := IndexSpace.table_eq_ok_iff.mp (Source.toOption_eq_some_iff.mp hfound)
  exact (Namespace.exists_get?_iff.mp ⟨found, hget⟩).trans_eq List.length_append

theorem lt_size_of_memoryAt? {k : UInt32} {a : Address} (h : inst.memoryAt? k = some a) :
    k.toNat < inst.compiled.space.memories.size := by
  obtain ⟨found, hfound, -⟩ := Option.bind_eq_some_iff.mp h
  have hget := IndexSpace.memory_eq_ok_iff.mp (Source.toOption_eq_some_iff.mp hfound)
  exact (Namespace.exists_get?_iff.mp ⟨found, hget⟩).trans_eq List.length_append

end Instance

namespace Module

variable {m : Module} {config : Config} {stopped : Bool} {c : Compiled}

/-- The segments of a compiled module name stores of the module. -/
theorem stores_of_compile (h : m.compile config stopped = .ok c) :
    (∀ e ∈ c.module.elements, ∃ found, c.space.table e.table = .ok found) ∧
      ∀ d ∈ c.module.data, ∃ found, c.space.memory d.memory = .ok found := by
  obtain ⟨rfl, functions, hprepare, -, -⟩ := compile_eq_ok_iff.mp h
  obtain ⟨⟨⟩, -, hrefs⟩ := Except.bind_eq_ok_iff.mp (prepare_eq_ok_iff.mp hprepare).2.2.1
  obtain ⟨⟨⟩, helements, hrefs⟩ := Except.bind_eq_ok_iff.mp hrefs
  obtain ⟨⟨⟩, hdata, -⟩ := Except.bind_eq_ok_iff.mp hrefs
  refine ⟨fun e he => ?_, fun d hd => ?_⟩
  · obtain ⟨i, hi⟩ := exists_of_checkEach helements he
    obtain ⟨found, hfound, -⟩ := Except.bind_eq_ok_iff.mp hi
    exact ⟨found, orRefuse_eq_ok_iff.mp hfound⟩
  · obtain ⟨i, hi⟩ := exists_of_checkEach hdata hd
    obtain ⟨found, hfound, -⟩ := Except.bind_eq_ok_iff.mp hi
    exact ⟨found, orRefuse_eq_ok_iff.mp hfound⟩

end Module

namespace Compiled

variable {m : Module} {config config' : Config} {stopped canceled : Bool} {c : Compiled}
  {imports : Imports} {p q : Pool} {r : Bound} {s : Allotment}

/-- Every element segment of a compiled module is written somewhere. -/
theorem exists_writesElement (hc : m.compile config stopped = .ok c)
    (hs : c.Allots config' imports p r s) :
    ∃ ws, List.Forall₂ ((c.instanceOf r p s).WritesElement (p.allot s)) c.module.elements ws := by
  have hl := Module.isLaidOut_of_compile hc
  have hlocates := locates hc hs (.refl _)
  obtain ⟨segments, hsegments, hreadable⟩ :=
    Instance.exists_elementSegments (Module.offsets_of_compile hc).1
  refine exists_writes (Instance.makes_of_elementSegments hsegments) (fun e he => ?_)
    fun segment hsegment => hlocates.exists_place hl (hreadable segment hsegment)
  obtain ⟨⟨loc, o⟩, hfound⟩ := (Module.stores_of_compile hc).1 e he
  obtain ⟨a, -, ha, -⟩ := hlocates.exists_table hl hfound
  exact ⟨a, Option.bind_eq_some_iff.mpr ⟨_, Source.toOption_eq_some_iff.mpr hfound, ha⟩⟩

/-- Every data segment of a compiled module is written somewhere. -/
theorem exists_writesData (hc : m.compile config stopped = .ok c)
    (hs : c.Allots config' imports p r s) :
    ∃ ws, List.Forall₂ ((c.instanceOf r p s).WritesData (p.allot s)) c.module.data ws := by
  have hl := Module.isLaidOut_of_compile hc
  have hlocates := locates hc hs (.refl _)
  obtain ⟨segments, hsegments, hreadable⟩ :=
    Instance.exists_dataSegments (Module.offsets_of_compile hc).2
  refine exists_writes (Instance.makes_of_dataSegments hsegments) (fun d hd => ?_)
    fun segment hsegment => hlocates.exists_place hl (hreadable segment hsegment)
  obtain ⟨⟨loc, o⟩, hfound⟩ := (Module.stores_of_compile hc).2 d hd
  obtain ⟨a, -, ha, -⟩ := hlocates.exists_memory hl hfound
  exact ⟨a, Option.bind_eq_some_iff.mpr ⟨_, Source.toOption_eq_some_iff.mpr hfound, ha⟩⟩

/-- **Segments take effect index by index.**  A compiled module is instantiated and all of its segments fit.  Then the
tables are what the element segments make of them, written one at a time, table index by table index and in the order of the
section for each; and the memories are what the data segments make of them in the same way.  Where no two imports are bound
to the same store, this is what the segments make of them in the order of their section. -/
theorem link_writes_by_index (hc : m.compile config stopped = .ok c) {inst : Instance}
    {log : List Event} (hlink : c.link config' imports p canceled = (.ok inst, q, log)) :
    ∃ r s elements data, c.Allots config' imports p r s ∧ inst = c.instanceOf r p s ∧
      List.Forall₂ (inst.WritesElement (p.allot s)) c.module.elements elements ∧
      List.Forall₂ (inst.WritesData (p.allot s)) c.module.data data ∧
      (Fits (p.allot s).tableStores elements → Fits (p.allot s).memoryStores data →
        (q.tableStores =
            performAll (p.allot s).tableStores (byIndex c.space.tables.size elements) ∧
          q.memoryStores =
            performAll (p.allot s).memoryStores (byIndex c.space.memories.size data)) ∧
        (imports.Separates c.module →
          q.tableStores = performAll (p.allot s).tableStores elements ∧
            q.memoryStores = performAll (p.allot s).memoryStores data)) := by
  obtain ⟨r, s, elementSegments, dataSegments, hs, rfl, hloads⟩ := loads_of_link hc hlink
  obtain ⟨elements, helements⟩ := exists_writesElement hc hs.allots
  obtain ⟨data, hdata⟩ := exists_writesData hc hs.allots
  refine ⟨r, s, elements, data, hs.allots, rfl, helements, hdata, fun hfits hfits' => ?_⟩
  have htables := hloads.tables.eq_performAll (Instance.makes_of_elementSegments hs.elements)
    helements hfits
  have hmemories := hloads.memories.eq_performAll (Instance.makes_of_dataSegments hs.data)
    hdata hfits'
  refine ⟨⟨htables, hmemories⟩, fun hsep => ⟨?_, ?_⟩⟩
  · rw [htables]
    refine performAll_byIndex (fun w hw => ?_) (fun w hw w' hw' haddress => ?_) _
    · exact Instance.lt_size_of_tableAt? (address_of_mem helements hw)
    · have hw' := address_of_mem helements hw'
      rw [← haddress] at hw'
      exact tableAt?_inj hsep hs.allots (address_of_mem helements hw) hw'
  · rw [hmemories]
    refine performAll_byIndex (fun w hw => ?_) (fun w hw w' hw' haddress => ?_) _
    · exact Instance.lt_size_of_memoryAt? (address_of_mem hdata hw)
    · have hw' := address_of_mem hdata hw'
      rw [← haddress] at hw'
      exact memoryAt?_inj hsep hs.allots (address_of_mem hdata hw) hw'

end Compiled

theorem fits_memoryStores {p : Pool} {ws : List Write} (h : ∀ w ∈ ws, ∀ memory,
    p.memories[w.address]? = some memory → w.placed.stop ≤ memory.store.length) :
    Fits p.memoryStores ws := by
  intro w hw store hstore
  rw [Pool.memoryStores, Array.getElem?_map] at hstore
  obtain ⟨memory, hmemory, rfl⟩ := Option.map_eq_some_iff.mp hstore
  exact h w hw memory hmemory

/-- A module that puts one byte into the second of two imported memories and then another at the same place in the first. -/
def overlapping : Module where
  imports := [⟨"env", "first", .memory (some ⟨1, none⟩)⟩,
    ⟨"env", "second", .memory (some ⟨1, none⟩)⟩]
  data := [{ memory := 1, offset := some ⟨Opcode.i32Const, [0]⟩, init := [1] },
    { memory := 0, offset := some ⟨Opcode.i32Const, [0]⟩, init := [2] }]

/-- What it writes where its memories have these addresses. -/
def overlappingWrites (first second : Address) : List Write :=
  [⟨1, second, ⟨0, [1]⟩⟩, ⟨0, first, ⟨0, [2]⟩⟩]

theorem writesData_overlapping {inst : Instance} {first second : Address} (p : Pool)
    (hfirst : inst.memoryAt? 0 = some first) (hsecond : inst.memoryAt? 1 = some second) :
    List.Forall₂ (inst.WritesData p) overlapping.data (overlappingWrites first second) :=
  .cons ⟨rfl, hsecond, _, rfl, rfl⟩ (.cons ⟨rfl, hfirst, _, rfl, rfl⟩ .nil)

/-- With two memories, the byte of each is where its segment says, whichever comes first. -/
theorem overlapping_writes_by_index : ∃ c inst q log r s, overlapping.compile {} = .ok c ∧
    c.link {} lendsTwoMemories twoMemories = (.ok inst, q, log) ∧
      inst = c.instanceOf r twoMemories s ∧ lendsTwoMemories.Separates c.module ∧
      Fits (twoMemories.allot s).memoryStores (overlappingWrites 0 1) ∧
      q.memoryStores = performAll (twoMemories.allot s).memoryStores
        (byIndex c.space.memories.size (overlappingWrites 0 1)) ∧
      q.memoryStores =
        performAll (twoMemories.allot s).memoryStores (overlappingWrites 0 1) := by
  have hruns : ((overlapping.compile {}).toOption.bind fun c =>
      (c.link {} lendsTwoMemories twoMemories).1.toOption.map fun inst =>
        (inst.memoryAt? 0, inst.memoryAt? 1)) = some (some 0, some 1) := by decide +kernel
  obtain ⟨c, hc, hruns⟩ := Option.bind_eq_some_iff.mp hruns
  obtain ⟨inst, hinst, hat⟩ := Option.map_eq_some_iff.mp hruns
  obtain ⟨hfirst, hsecond⟩ := Prod.mk.inj hat
  replace hc := Source.toOption_eq_some_iff.mp hc
  have hmodule : c.module = overlapping := (Module.compile_eq_ok_iff.mp hc).1
  have hlink : c.link {} lendsTwoMemories twoMemories =
      (.ok inst, (c.link {} lendsTwoMemories twoMemories).2) :=
    Prod.ext (Source.toOption_eq_some_iff.mp hinst) rfl
  have hsep : lendsTwoMemories.Separates c.module := by
    rw [hmodule]
    exact ⟨by decide, by decide⟩
  obtain ⟨r, s, elements, data, -, rfl, helements, hdata, hwrites⟩ :=
    Compiled.link_writes_by_index hc hlink
  rw [hmodule] at helements hdata
  obtain rfl := List.forall₂_nil_left_iff.mp helements
  obtain rfl := List.right_unique_forall₂' rightUnique_writes hdata
    (writesData_overlapping _ hfirst hsecond)
  have hfits : Fits (twoMemories.allot s).memoryStores (overlappingWrites 0 1) := by
    refine fits_memoryStores fun w hw memory hmemory => ?_
    rcases List.mem_pair.mp hw with rfl | rfl
    · cases hmemory.symm.trans ((twoMemories.keeps_allot s).memories 1 _ rfl)
      decide
    · cases hmemory.symm.trans ((twoMemories.keeps_allot s).memories 0 _ rfl)
      decide
  obtain ⟨⟨-, hbyIndex⟩, hinOrder⟩ := hwrites (List.forall_mem_nil _) hfits
  exact ⟨c, _, _, _, r, s, hc, hlink, rfl, hsep, hfits, hbyIndex, (hinOrder hsep).2⟩

/-- One memory under both names. -/
def lendsTwice : Imports :=
  { memories := [(⟨"env", "first"⟩, some 0), (⟨"env", "second"⟩, some 0)] }

/-- **Section order can be seen to fail.**  With one memory under both names all segments fit and the module is
instantiated.  In the order of the section the byte would be two, and it is one. -/
theorem overlapping_ignores_section_order : ∃ c inst q log, overlapping.compile {} = .ok c ∧
    c.link {} lendsTwice onePage = (.ok inst, q, log) ∧
      List.Forall₂ (inst.WritesElement onePage) c.module.elements [] ∧
      List.Forall₂ (inst.WritesData onePage) c.module.data (overlappingWrites 0 0) ∧
      Fits onePage.memoryStores (overlappingWrites 0 0) ∧
      q.memoryStores[0]?.map (fun s => s.bytes.byte 0) = some 1 ∧
      (performAll onePage.memoryStores (overlappingWrites 0 0))[0]?.map
        (fun s => s.bytes.byte 0) = some 2 := by
  have hruns : ((overlapping.compile {}).toOption.bind fun c =>
      (c.link {} lendsTwice onePage).1.toOption.map fun inst =>
        (inst.memoryAt? 0, inst.memoryAt? 1,
          (c.link {} lendsTwice onePage).2.1.memoryStores[0]?.map fun s => s.bytes.byte 0)) =
      some (some 0, some 0, some 1) := by decide +kernel
  obtain ⟨c, hc, hruns⟩ := Option.bind_eq_some_iff.mp hruns
  obtain ⟨inst, hinst, hat⟩ := Option.map_eq_some_iff.mp hruns
  obtain ⟨hfirst, hat⟩ := Prod.mk.inj hat
  obtain ⟨hsecond, hbyte⟩ := Prod.mk.inj hat
  replace hc := Source.toOption_eq_some_iff.mp hc
  have hmodule : c.module = overlapping := (Module.compile_eq_ok_iff.mp hc).1
  have hlink : c.link {} lendsTwice onePage = (.ok inst, (c.link {} lendsTwice onePage).2) :=
    Prod.ext (Source.toOption_eq_some_iff.mp hinst) rfl
  refine ⟨c, inst, _, _, hc, hlink, ?_, ?_, ?_, hbyte, ?_⟩
  · rw [hmodule]
    exact .nil
  · rw [hmodule]
    exact writesData_overlapping _ hfirst hsecond
  · refine fits_memoryStores fun w hw memory hmemory => ?_
    rcases List.mem_pair.mp hw with rfl | rfl
    · cases hmemory
      decide
    · cases hmemory
      decide
  · decide +kernel

end FlatWasm
