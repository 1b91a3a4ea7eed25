import Mathlib
import FlatWasm.Proofs.Binary.RoundTrip
import FlatWasm.Proofs.Compilation.Stages
import FlatWasm.Proofs.Flat.Lines
import FlatWasm.Proofs.Lowering.Emitted
import FlatWasm.Proofs.TypeSystem.Operators

/-!
# Loading meets no defect

The stages of loading trust each other.  A body is read in index spaces that are taken to be complete, a function is paired
with the code at its position, a slot of the output is taken to be there when its target is known.  Each of these is a
defect where it is wrong, and none of them can be wrong: `load_answers_or_refuses` says so of all bytes.

## How the statement is put together

`NoDefect` passes through everything that computations are put together from, so a stage meets no defect where none of its
look-ups does.  A look-up that needs an earlier stage gets what it needs from the equation of the step before it, which the
law for `bind` hands on.

Some accesses are guarded by the reader of instructions and not by a defect: the frame that a branch names, the local that an
instruction works on, the number of targets of a branch table, which has to be counted in a word.  They are the fields of
`Instr.InRange`.  The last of them holds of the bodies of a module that was read from bytes, not of any body, since it rests on
their length.
-/

namespace FlatWasm

/-! ## Readers of instructions -/

namespace Instr

variable {α β : Type}

/-- A reader that meets no defect, whatever it reads. -/
def Safe (r : Part α) : Prop :=
  ∀ bytes, NoDefect (r bytes)

theorem safe_pure (a : α) : Safe (pure a : Part α) :=
  fun _ => failsOnly_ok _

theorem safe_invalid (cause : Cause) : Safe (invalid cause : Part α) :=
  fun _ => noDefect_refuse _

theorem Safe.bind {r : Part α} {f : α → Part β} (hr : Safe r) (hf : ∀ a, Safe (f a)) :
    Safe (r >>= f) :=
  fun bytes => (hr bytes).bind fun p _ => hf p.1 p.2

/-- What reads no bytes hands its answer on. -/
theorem safe_ofExcept_bind {x : Except (Failure Cause) α} {f : α → Part β} (hx : NoDefect x)
    (hf : ∀ a, x = .ok a → Safe (f a)) : Safe (Reader.ofExcept x >>= f) := by
  intro bytes failure h
  cases hxa : x with
  | error e =>
    rw [hxa] at h
    cases h
    exact hx failure hxa
  | ok a =>
    rw [hxa] at h
    exact hf a hxa bytes failure h

theorem safe_lookUp_bind {f : IndexSpace.Error → Cause} {x : Except IndexSpace.Error α}
    {k : α → Part β} (hk : ∀ a, x = .ok a → Safe (k a)) : Safe (lookUp f x >>= k) :=
  safe_ofExcept_bind (noDefect_orRefuse f x) fun a ha => hk a (orRefuse_eq_ok_iff.mp ha)

theorem safe_available_bind {x : Option α} {a : α} {k : α → Part β} (h : x = some a)
    (hk : Safe (k a)) : Safe (available x >>= k) := by
  subst h
  exact safe_ofExcept_bind (failsOnly_present rfl) fun _ ha => (Except.ok.inj ha) ▸ hk

theorem safe_number (load : List UInt8 → Except Leb128.Error (α × ℕ)) (what : String) :
    Safe (number load what) := by
  intro bytes
  rw [number]
  split
  · exact failsOnly_ok _
  · exact noDefect_refuse _

theorem safe_word (what : String) : Safe (word what) :=
  (safe_number _ what).bind fun _ => safe_pure _

theorem safe_raw (n : ℕ) (what : String) : Safe (raw n what) := by
  intro bytes
  rw [raw]
  split
  · exact failsOnly_ok _
  · exact noDefect_refuse _

theorem safe_label (frames : ℕ) : Safe (label frames) := by
  refine (safe_word _).bind fun depth => ?_
  split
  · exact safe_invalid _
  · exact safe_pure _

theorem safe_replicate {r : ℕ → Part α} (hr : ∀ i, Safe (r i)) (n first : ℕ) :
    Safe (Reader.replicate n r first) := by
  induction n generalizing first with
  | zero => exact safe_pure []
  | succ n ih => exact (hr first).bind fun _ => (ih (first + 1)).bind fun _ => safe_pure _

theorem safe_table (frames : ℕ) : Safe (table frames) := by
  refine (safe_word _).bind fun length => Safe.bind (fun _ => failsOnly_ok _) fun remaining => ?_
  split
  · exact safe_invalid _
  · exact (safe_replicate (fun _ => safe_label frames) _ _).bind fun _ =>
      (safe_label frames).bind fun _ => safe_pure _

theorem safe_memory (space : IndexSpace) : Safe (memory space) :=
  (safe_word _).bind fun _ => safe_lookUp_bind fun _ _ => safe_pure _

theorem safe_readTypedSelect : Safe readTypedSelect := by
  refine (safe_word _).bind fun count => ?_
  split
  · exact safe_invalid _
  · refine (safe_raw _ _).bind fun bytes => ?_
    dsimp only
    split
    · exact safe_pure _
    · exact safe_invalid _

theorem safe_readLocal (scope : Scope) (f : UInt32 → ValueType → Instr) :
    Safe (readLocal scope f) := by
  refine (safe_word _).bind fun i => ?_
  split
  · exact safe_pure _
  · exact safe_invalid _

theorem safe_readAccess (space : IndexSpace) (a : Access) : Safe (readAccess space a) := by
  refine (safe_word _).bind fun flags => Safe.bind ?_ fun i => (safe_word _).bind fun offset => ?_
  · rw [accessMemory]
    split
    · exact safe_word _
    · exact safe_pure _
  · dsimp only
    split
    · exact safe_lookUp_bind fun _ _ => safe_pure _
    · exact safe_invalid _

theorem safe_readMisc (space : IndexSpace) : Safe (readMisc space) := by
  refine (safe_word _).bind fun op => ?_
  split
  · exact safe_pure _
  split
  · refine (safe_memory space).bind fun target => (safe_memory space).bind fun source => ?_
    split
    · exact safe_invalid _
    · exact safe_pure _
  split
  · exact (safe_memory space).bind fun _ => safe_pure _
  · exact safe_invalid _

theorem safe_readNumeric (op : UInt8) : Safe (readNumeric op) := by
  rw [readNumeric]
  split
  · exact safe_pure _
  · exact safe_invalid _

section Complete

variable {space : IndexSpace} (hc : space.Complete)

include hc

/-- A type that an index names is there. -/
theorem exists_of_type {i : UInt32} {o : Option FuncType} (h : space.type i = .ok o) :
    ∃ type, o = some type := by
  rw [IndexSpace.type] at h
  split at h
  · next t ht =>
    cases h
    obtain ⟨type, rfl, -⟩ := hc.types _ (List.mem_of_getElem? ht)
    exact ⟨type, rfl⟩
  · cases h

theorem exists_of_function {i : UInt32} {loc : Location} {o : Option FuncType}
    (h : space.function i = .ok (loc, o)) : ∃ type, o = some type := by
  rw [IndexSpace.function] at h
  split at h
  · next loc' t hget =>
    obtain ⟨-, rfl⟩ := Prod.mk.inj (Except.ok.inj h)
    obtain ⟨t', ht, heq⟩ := Option.map_eq_some_iff.mp hget
    obtain ⟨-, rfl⟩ := Prod.mk.inj heq
    exact hc.exists_type (List.mem_of_getElem? ht)
  · cases h

theorem exists_of_global {i : UInt32} {loc : Location} {o : Option GlobalType}
    (h : space.global i = .ok (loc, o)) : ∃ type, o = some type := by
  rw [IndexSpace.global] at h
  split at h
  · next entry hget =>
    cases h
    obtain ⟨o', ho, heq⟩ := Option.map_eq_some_iff.mp hget
    obtain ⟨-, rfl⟩ := Prod.mk.inj heq
    rcases List.mem_append.mp (List.mem_of_getElem? ho) with hmem | hmem
    · obtain ⟨g, hg, -⟩ := hc.importedGlobals _ hmem
      exact ⟨g, hg⟩
    · obtain ⟨g, hg, -⟩ := hc.definedGlobals _ hmem
      exact ⟨g, hg⟩
  · cases h

theorem safe_blockType : Safe (blockType space) := by
  refine Safe.bind (fun _ => failsOnly_ok _) fun b => ?_
  split
  · exact safe_invalid _
  split
  · exact (safe_raw _ _).bind fun _ => safe_pure _
  split
  · exact (safe_raw _ _).bind fun _ => safe_pure _
  · refine (safe_number _ _).bind fun v => ?_
    split
    · exact safe_invalid _
    · refine safe_lookUp_bind fun type ht => ?_
      obtain ⟨type, rfl⟩ := exists_of_type hc ht
      exact fun _ => failsOnly_ok _

theorem safe_readCall : Safe (readCall space) := by
  refine (safe_word _).bind fun i => safe_lookUp_bind fun found hf => ?_
  obtain ⟨loc, type⟩ := found
  obtain ⟨type, rfl⟩ := exists_of_function hc hf
  exact safe_available_bind rfl (safe_pure _)

theorem safe_readCallIndirect : Safe (readCallIndirect space) := by
  refine (safe_word _).bind fun typeIndex => (safe_word _).bind fun tableIndex =>
    safe_lookUp_bind fun type ht => safe_lookUp_bind fun found hf => ?_
  obtain ⟨type, rfl⟩ := exists_of_type hc ht
  exact safe_available_bind rfl (safe_pure _)

theorem safe_readGlobal (writes : Bool) (f : Location → ValueType → UInt32 → Instr) :
    Safe (readGlobal space writes f) := by
  refine (safe_word _).bind fun i => safe_lookUp_bind fun found hf => ?_
  obtain ⟨loc, type⟩ := found
  obtain ⟨type, rfl⟩ := exists_of_global hc hf
  obtain ⟨width, hw⟩ := Source.exists_width (hc.isNumeric_global hf)
  refine safe_available_bind rfl (safe_ofExcept_bind (failsOnly_orDefect hw) fun _ _ => ?_)
  split
  · exact safe_invalid _
  · exact safe_pure _

end Complete

/-- **An instruction is read without defects** where the index spaces are complete. -/
theorem safe_read {scope : Scope} (hc : scope.space.Complete) (frames : ℕ) (op : UInt8) :
    Safe (read scope frames op) := by
  rw [read]
  repeat' split
  all_goals first
    | exact safe_pure _
    | exact safe_readAccess _ _
    | exact (safe_blockType hc).bind fun _ => safe_pure _
    | exact (safe_label _).bind fun _ => safe_pure _
    | exact safe_table _
    | exact safe_readCall hc
    | exact safe_readCallIndirect hc
    | exact safe_readTypedSelect
    | exact safe_readLocal _ _
    | exact safe_readGlobal hc _ _
    | exact (safe_memory _).bind fun _ => safe_pure _
    | exact ((safe_number _ _).bind fun _ => safe_pure _).bind fun _ => safe_pure _
    | exact (safe_raw _ _).bind fun _ => safe_pure _
    | exact safe_readMisc _
    | exact safe_readNumeric _

end Instr

/-! ## The walk over a body -/

theorem Typing.State.noDefect_accept {scope : Scope} (hc : scope.space.Complete)
    (s : Typing.State) (op : UInt8) (bytes : List UInt8) :
    NoDefect (s.accept scope op bytes) := by
  have hread := Instr.safe_read hc s.depth op bytes
  rw [accept]
  cases hr : Instr.read scope s.depth op bytes with
  | error e =>
    cases e with
    | error cause => exact noDefect_refuse cause
    | defect d => exact absurd hr (hread.ne_defect d)
  | ok p =>
    dsimp only
    split
    · exact noDefect_refuse _
    · exact failsOnly_ok _

/-- **The walk over a body meets no defect.**  The invariant is that every slot that waits is there. -/
theorem Subject.noDefect_lower {subject : Subject} (hc : subject.scope.space.Complete)
    {frames : Typing.State} {s : Lowering.State} (hs : s.Sound) (bytes : List UInt8) :
    NoDefect (subject.lower frames s bytes) := by
  induction hn : bytes.length using Nat.strong_induction_on generalizing frames s bytes with
  | _ n ih =>
    subst hn
    cases bytes with
    | nil =>
      rw [lower]
      exact noDefect_refuse _
    | cons op bytes =>
      rw [lower]
      split
      · next e he =>
        cases e with
        | error cause => exact noDefect_refuse _
        | defect d => exact absurd he ((frames.noDefect_accept hc op bytes).ne_defect d)
      · next instr next rest ha =>
        obtain ⟨s', hs', hgrows⟩ := hs.exists_step subject.scope frames instr
        rw [hs']
        dsimp only
        have hlt : rest.length < (op :: bytes).length :=
          Nat.lt_succ_of_le (Typing.State.suffix_of_accept ha).length_le
        cases next with
        | some frames' => exact ih _ hlt hgrows.1 rest rfl
        | none =>
          cases rest with
          | nil => exact failsOnly_ok _
          | cons op' rest' => exact noDefect_refuse _

theorem Function.noDefect_lower {space : IndexSpace} (hc : space.Complete) (f : Function) :
    NoDefect (f.lower space) := by
  rw [lower]
  split
  · exact noDefect_refuse _
  · next body _ =>
    refine FailsOnly.bind (FailsOnly.mapError (FailsOnly.bind ?_ fun _ _ => failsOnly_ok _))
      fun _ _ => failsOnly_ok _
    exact Subject.noDefect_lower hc f.sound_start body

/-! ## The stages of compilation -/

theorem ConstExpr.noDefect_check {space : IndexSpace} (hc : space.Complete) (e : Option ConstExpr)
    (expected : ValueType) : NoDefect (ConstExpr.check e expected space) := by
  cases e with
  | none => exact noDefect_refuse _
  | some e =>
    refine (noDefect_orRefuse _ _).bind fun imm _ => FailsOnly.bind ?_ fun actual _ => ?_
    · rw [typeOf]
      split
      · exact failsOnly_ok _
      · refine (noDefect_orRefuse _ _).bind fun found hf => ?_
        obtain ⟨loc, type⟩ := found
        obtain ⟨type, rfl⟩ := Instr.exists_of_global hc (orRefuse_eq_ok_iff.mp hf)
        dsimp only
        split
        · exact noDefect_refuse _
        · refine (failsOnly_present rfl).bind fun type' _ => ?_
          split
          · exact noDefect_refuse _
          · exact failsOnly_ok _
    · split
      · exact noDefect_refuse _
      · exact failsOnly_ok _

namespace Module

variable {m : Module} {space : IndexSpace}

theorem noDefect_checkEach {ε α : Type} {items : List α}
    {check : ℕ → α → Except (Failure ε) Unit} (h : ∀ a ∈ items, ∀ i, NoDefect (check i a)) :
    NoDefect (checkEach items check) := by
  refine FailsOnly.forM fun p hp => ?_
  obtain ⟨a, i⟩ := p
  exact h a (List.fst_mem_of_mem_zipIdx hp) i

theorem noDefect_checkReferences (hm : m.IsChecked) (hc : space.Complete) :
    NoDefect (m.checkReferences space) := by
  refine FailsOnly.bind (noDefect_checkEach fun g hg i => ?_) fun _ _ =>
    FailsOnly.bind (noDefect_checkEach fun e _ i => ?_) fun _ _ =>
    FailsOnly.bind (noDefect_checkEach fun d _ i => ?_) fun _ _ =>
    FailsOnly.bind (noDefect_orRefuse _ _) fun _ _ => ?_
  · obtain ⟨type, ht, -⟩ := hm.definedGlobals g hg
    exact (failsOnly_present ht).bind fun _ _ => (ConstExpr.noDefect_check hc _ _).mapError
  · exact (noDefect_orRefuse _ _).bind fun _ _ =>
      ((ConstExpr.noDefect_check hc _ _).mapError).bind fun _ _ =>
        noDefect_checkEach fun _ _ _ => noDefect_orRefuse _ _
  · exact (noDefect_orRefuse _ _).bind fun _ _ => (ConstExpr.noDefect_check hc _ _).mapError
  · split
    · exact failsOnly_ok _
    · refine (noDefect_orRefuse _ _).bind fun found hf => ?_
      obtain ⟨loc, type⟩ := found
      obtain ⟨type, rfl⟩ := Instr.exists_of_function hc (orRefuse_eq_ok_iff.mp hf)
      refine (failsOnly_present rfl).bind fun type' _ => ?_
      split
      · exact noDefect_refuse _
      · exact failsOnly_ok _

theorem noDefect_rawFunctions (hc : space.Complete) (hlen : m.functions.length = m.code.length) :
    NoDefect (m.rawFunctions space) := by
  refine FailsOnly.mapM fun p hp => ?_
  obtain ⟨typeIndex, i⟩ := p
  have hi : i < m.code.toArray.size := by
    have hget := List.mk_mem_zipIdx_iff_getElem?.mp hp
    rw [List.size_toArray, ← hlen]
    exact (List.getElem?_eq_some_iff.mp hget).1
  refine (noDefect_orRefuse _ _).bind fun type ht => ?_
  obtain ⟨type, rfl⟩ := Instr.exists_of_type hc (orRefuse_eq_ok_iff.mp ht)
  exact (failsOnly_present rfl).bind fun _ _ =>
    (failsOnly_inBounds (Array.getElem?_eq_getElem hi)).bind fun _ _ => failsOnly_ok _

theorem noDefect_prepare (m : Module) (config : Config) : NoDefect (m.prepare config) := by
  refine (noDefect_orRefuse _ _).bind fun u hshape =>
    (noDefect_orRefuse _ _).bind fun space hspace => ?_
  have hm := isChecked_of_checkShape (orRefuse_eq_ok_iff.mp hshape)
  have hc : space.Complete := IndexSpace.complete_of_checkShape (orRefuse_eq_ok_iff.mp hshape)
    (orRefuse_eq_ok_iff.mp hspace)
  have hlen := length_code_of_checkShape (orRefuse_eq_ok_iff.mp hshape)
  exact ((noDefect_checkReferences hm hc).mapError).bind fun _ _ =>
    (noDefect_rawFunctions hc hlen).bind fun _ _ => failsOnly_ok _

/-- **Compilation meets no defect**, whatever the module, even one that no bytes hold. -/
theorem noDefect_compile (m : Module) (config : Config) (canceled : Bool) :
    NoDefect (m.compile config canceled) := by
  refine (m.noDefect_prepare config).bind fun p hp => ?_
  obtain ⟨space, functions⟩ := p
  have hc := complete_of_prepare hp
  refine FailsOnly.bind (FailsOnly.mapM fun f _ => ?_) fun _ _ => failsOnly_ok _
  cases canceled with
  | true => exact noDefect_refuse _
  | false => exact (f.noDefect_lower hc).mapError

end Module

/-! ## Accesses that the reader guards -/

/-- What an instruction names is there: the frames of its labels, of which there are fewer than words can count, and its
local. -/
structure Instr.InRange (i : Instr) (scope : Scope) (depth : ℕ) : Prop where
  labels : ∀ d ∈ i.labels, d < depth
  labelCount : i.labels.length < 2 ^ 32
  localIndex : ∀ x, i.local? = some x → x.toNat < scope.locals.length

namespace Source

variable {scope : Scope} {depth : ℕ}

/-- Each label takes at least one byte. -/
theorem Op.length_labels_le {o : Op} {op : UInt8} {bs : List UInt8} {i : Instr}
    (h : o.Encoded (op :: bs)) (hr : o.resolve scope depth = some i) :
    i.labels.length ≤ bs.length := by
  cases o with
  | br l =>
    obtain ⟨d, -, rfl⟩ := Option.map_eq_some_iff.mp hr
    cases h with
    | br h => exact h.length_pos
  | brIf l =>
    obtain ⟨d, -, rfl⟩ := Option.map_eq_some_iff.mp hr
    cases h with
    | brIf h => exact h.length_pos
  | brTable ls l =>
    obtain ⟨ds, hds, hr⟩ := Option.bind_eq_some_iff.mp hr
    obtain ⟨d, -, hr⟩ := Option.bind_eq_some_iff.mp hr
    cases hr
    obtain ⟨rfl, -⟩ := mapM_label?_eq_some_iff.mp hds
    cases h with
    | @brTable _ _ _ ns bs cs hn hlen hls hl =>
      have h₁ := Instr.length_le_of_words hls
      have h₂ := hl.length_pos
      simp only [Instr.labels, List.length_append, List.length_map, List.length_singleton]
      omega
  | _ =>
    have hnil : i.labels = [] := by
      simp only [Op.resolve, Option.map_eq_some_iff, Option.bind_eq_bind, Option.bind_eq_some_iff,
        Option.pure_def, Option.some.injEq, Option.ite_none_right_eq_some] at hr
      grind [Instr.labels]
    rw [hnil]
    exact Nat.zero_le _

/-- The number of entries of a branch table is a word. -/
theorem Token.length_lt_of_resolve {t : Token} {bs : List UInt8} {labels : List ℕ} {fallback : ℕ}
    (h : t.Encoded bs) (hr : t.resolve scope depth = some (.brTable labels fallback)) :
    labels.length < 2 ^ 32 := by
  cases h with
  | @op o bs h =>
    cases h with
    | @brTable ls l n ns bs cs hn hlen hls hl =>
      obtain ⟨ds, hds, hr⟩ := Option.bind_eq_some_iff.mp hr
      obtain ⟨d, -, hr⟩ := Option.bind_eq_some_iff.mp hr
      cases hr
      obtain ⟨rfl, -⟩ := mapM_label?_eq_some_iff.mp hds
      rw [List.length_map, hlen]
      exact n.toNat_lt
    | _ =>
      simp only [Token.resolve, Op.resolve, Option.map_eq_some_iff, Option.bind_eq_bind,
        Option.bind_eq_some_iff, Option.pure_def, Option.some.injEq,
        Option.ite_none_right_eq_some] at hr
      grind
  | block _ | loop _ | ifThen _ =>
    obtain ⟨type, -, hr⟩ := Option.map_eq_some_iff.mp hr
    cases hr
  | elseMark | endMark => cases hr

/-- What a token emits can be written. -/
theorem Token.fits_of_emits {t : Token} {bs : List UInt8} {i : Instr} {j : Flat.Instr}
    (h : t.Encoded bs) (hr : t.resolve scope depth = some i) (he : i.Emits j) : j.Fits := by
  cases he with
  | jump hj => cases j <;> trivial
  | marker _ => trivial
  | plain hf =>
    cases i with
    | call callee type =>
      obtain ⟨origin, position⟩ := callee
      cases origin <;> cases hf <;> trivial
    | access a offset memory => cases a <;> cases hf <;> trivial
    | _ => cases hf <;> trivial
  | table hi keep hlen last =>
    subst hi
    rw [Flat.Instr.Fits, hlen]
    exact Token.length_lt_of_resolve h hr

end Source

theorem Flat.Instr.ignoresTargets_fits : IgnoresTargets Fits := by
  intro i f h
  cases i with
  | brTable keep entries fallback =>
    rw [retarget, Fits, List.length_mapIdx]
    exact h
  | _ => trivial

/-- The code of a function is listed line by line, however long it is. -/
theorem Function.disassemble_code {f : Function} {space : IndexSpace} {code : Flat.Code}
    (h : (f.subject space).lower f.start.frames f.start.low f.body.bytes = .ok code) :
    Flat.disassemble code.bytes = .ok (Flat.lines 0 code.list) :=
  Flat.disassembleFrom_encode 0 (all_of_code Flat.Instr.ignoresTargets_fits (fun _ => trivial)
    (fun _ _ _ _ ht hr _ he => Source.Token.fits_of_emits ht hr he) h)

theorem Function.exists_lines_of_lower {f g : Function} {space : IndexSpace}
    (h : f.lower space = .ok g) : ∃ lines, Flat.disassemble g.body.bytes = .ok lines := by
  obtain ⟨code, -, hcode, rfl⟩ := lower_eq_ok_iff.mp h
  exact ⟨_, disassemble_code hcode⟩

/-- What is read from fewer bytes than a word can count names only what is there. -/
theorem Instr.inRange_of_read {scope : Scope} {depth : ℕ} {op : UInt8} {bytes rest : List UInt8}
    {i : Instr} (h : read scope depth op bytes = .ok (i, rest)) (hlen : bytes.length < 2 ^ 32) :
    i.InRange scope depth := by
  obtain ⟨t, bs, ht, rfl⟩ := exists_token_of_read h
  have hres : t.resolve scope depth = some i := by
    have hread : Reader.answer (read scope depth op) (bs ++ rest) = _ := answer_read ht rest
    rw [Reader.answer_eq_some_iff.mpr h] at hread
    obtain ⟨i', hi, heq⟩ := Option.map_eq_some_iff.mp hread.symm
    cases heq
    exact hi
  have hnone : i.labels = [] → i.local? = none → i.InRange scope depth := by
    intro hl hx
    refine ⟨?_, ?_, ?_⟩
    · rw [hl]
      exact List.forall_mem_nil _
    · rw [hl]
      exact Nat.two_pow_pos 32
    · rw [hx]
      rintro x ⟨⟩
  cases t with
  | op o =>
    cases ht with
    | op ho =>
      have hle := Source.Op.length_labels_le ho hres
      rw [List.length_append] at hlen
      exact ⟨Source.label_lt_of_resolve hres, by omega, Source.local_lt_of_resolve hres⟩
  | block type | loop type | ifThen type =>
    obtain ⟨type', -, rfl⟩ := Option.map_eq_some_iff.mp hres
    exact hnone rfl rfl
  | elseMark | endMark =>
    cases hres
    exact hnone rfl rfl

/-- What the code section of a module holds was read from bytes. -/
theorem Module.exists_written_of_decode {m : Module} {bytes : List UInt8}
    (h : decode bytes = .ok m) : ∀ c ∈ m.code, ∃ taken, c.Written taken := by
  obtain ⟨frames, -, hr, hl, -⟩ := decode_eq_ok_iff_loads.mp h
  have hgiven := ((Binary.Frame.loads_iff hr).mp hl).2 .code
  rw [get_default] at hgiven
  intro c hc
  have hne : Binary.Known.isEmpty .code (m.get .code) = false := by
    show m.code.isEmpty = false
    rw [List.isEmpty_eq_false_iff]
    exact List.ne_nil_of_mem hc
  obtain ⟨f, -, -, hw⟩ := hgiven.exists_written hne
  change Binary.Vector Code.Written m.code f.content at hw
  generalize f.content = content at hw
  obtain ⟨-, hitems⟩ := hw
  refine Reader.Items.forall_mem (P := fun c => ∃ taken, c.Written taken) ?_ hitems c hc
  exact fun _ taken hcode => ⟨taken, hcode⟩

/-- A body that was read has a length that is a word. -/
theorem Module.length_body_lt_of_decode {m : Module} {bytes : List UInt8}
    (h : decode bytes = .ok m) : ∀ c ∈ m.code, c.body.length < 2 ^ 32 := by
  intro c hc
  obtain ⟨taken, hcode⟩ := exists_written_of_decode h c hc
  obtain ⟨hlocals, hcount, hlast, hn, hg, ⟨hs⟩⟩ := hcode
  have hlt := hs.lt
  simp only [List.length_append] at hlt
  omega

/-- The locals that a body declares can be counted in a word; its parameters are not among them. -/
theorem Module.length_locals_lt_of_decode {m : Module} {bytes : List UInt8}
    (h : decode bytes = .ok m) : ∀ c ∈ m.code, c.locals.length < 2 ^ 32 := by
  intro c hc
  obtain ⟨taken, hcode⟩ := exists_written_of_decode h c hc
  obtain ⟨-, hcount, -⟩ := hcode
  exact hcount

/-! ## Loading -/

/-- What is lowered is as many functions as there is code for, each with code that can be listed. -/
theorem Module.functions_of_compile {m : Module} {config : Config} {canceled : Bool} {c : Compiled}
    (h : m.compile config canceled = .ok c) : c.functions.length = m.code.length ∧
      ∀ f ∈ c.functions, ∃ lines, Flat.disassemble f.body.bytes = .ok lines := by
  obtain ⟨-, functions, hprepare, -, hlowered⟩ := compile_eq_ok_iff.mp h
  obtain ⟨hshape, -, -, hraw⟩ := prepare_eq_ok_iff.mp hprepare
  constructor
  · rw [← hlowered.length_eq, length_rawFunctions hraw, length_code_of_checkShape hshape]
  · intro g hg
    obtain ⟨i, hi⟩ := List.mem_iff_getElem?.mp hg
    obtain ⟨f, -, hf⟩ := exists_getElem?_of_forall₂ hlowered hi
    exact Function.exists_lines_of_lower hf

theorem load_eq_ok_iff {bytes : List UInt8} {config : Config} {canceled : Bool} {c : Compiled} :
    load (some bytes) config canceled = .ok c ↔
      ∃ m, Module.decode bytes = .ok m ∧ m.compile config canceled = .ok c := by
  rw [load, Except.bind_eq_ok_iff]
  simp only [orRefuse_eq_ok_iff, decodeSource, Except.mapError_eq_ok_iff]

theorem noDefect_load (source : Option (List UInt8)) (config : Config) (canceled : Bool) :
    NoDefect (load source config canceled) :=
  (noDefect_orRefuse _ _).bind fun m _ => m.noDefect_compile config canceled

/-- **Loading never goes wrong.**  All bytes are refused with an error or become a compiled module, in which there is a
function for every entry of the code section, with code that can be listed.  On the way, every instruction that is read from
a body names only frames and locals that are there, and no more labels than words can count. -/
theorem load_answers_or_refuses (bytes : List UInt8) (config : Config) (canceled : Bool) :
    ((∃ e, load (some bytes) config canceled = .error (.error e)) ∨
      ∃ m c, Module.decode bytes = .ok m ∧ load (some bytes) config canceled = .ok c ∧
        c.functions.length = m.code.length ∧
        ∀ f ∈ c.functions, ∃ lines, Flat.disassemble f.body.bytes = .ok lines) ∧
    ∀ m space functions, Module.decode bytes = .ok m → m.prepare config = .ok (space, functions) →
      ∀ f ∈ functions, ∀ depth op rest i left, op :: rest <:+ f.body.bytes →
        Instr.read (f.subject space).scope depth op rest = .ok (i, left) →
          i.InRange (f.subject space).scope depth := by
  constructor
  · rcases (noDefect_load (some bytes) config canceled).ok_or_refused with ⟨e, he, -⟩ | ⟨c, hc⟩
    · exact .inl ⟨e, he⟩
    · obtain ⟨m, hm, hcompile⟩ := load_eq_ok_iff.mp hc
      obtain ⟨hlen, hlines⟩ := Module.functions_of_compile hcompile
      exact .inr ⟨m, c, hm, hc, hlen, hlines⟩
  · intro m space functions hm hprepare f hf depth op rest i left hsuffix hread
    obtain ⟨n, hn⟩ := List.mem_iff_getElem?.mp hf
    obtain ⟨_, _, code, -, -, hcode, rfl⟩ :=
      Module.exists_of_rawFunctions (Module.prepare_eq_ok_iff.mp hprepare).2.2.2 hn
    have hlt := Module.length_body_lt_of_decode hm code (List.mem_of_getElem? hcode)
    have hle : (op :: rest).length ≤ code.body.length := hsuffix.length_le
    exact Instr.inRange_of_read hread (Nat.lt_of_succ_lt (Nat.lt_of_le_of_lt hle hlt))

/-- A module with a function that branches through a table. -/
def dispatch : List UInt8 :=
  Binary.magic ++ Binary.version ++ [0x01, 0x04, 0x01, 0x60, 0x00, 0x00] ++ [0x03, 0x02, 0x01, 0x00]
    ++ [0x0a, 0x0d, 0x01, 0x0b, 0x00, 0x02, 0x40, 0x41, 0x00, 0x0e, 0x01, 0x00, 0x01, 0x0b, 0x0b]

theorem dispatch_loads : ∃ c, load (some dispatch) {} = .ok c ∧
    ∀ f ∈ c.functions, ∃ lines, Flat.disassemble f.body.bytes = .ok lines := by
  have hok : (load (some dispatch) {}).toOption.isSome = true := by decide +kernel
  rcases (load_answers_or_refuses dispatch {} false).1 with ⟨e, he⟩ | ⟨m, c, -, hc, -, hlines⟩
  · rw [he] at hok
    cases hok
  · exact ⟨c, hc, hlines⟩

end FlatWasm
