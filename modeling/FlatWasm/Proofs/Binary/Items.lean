import Mathlib
import FlatWasm.Proofs.Binary.Grammar

/-!
# The grammar of the items of sections

Imports, globals, exports, segments and code: what an entry of each section is written as, and that its reader accepts
exactly this.

* `accepts_constExpr`: an initializer keeps the bytes of its immediate as they are, so it has one form only.
* `accepts_elementItem`, `accepts_dataItem`: table and memory zero can be named or not, with the same result.
* `accepts_codeItem`: locals can be declared in any groups; what is kept is their normal form.

Code is the one entry that is held to its own length.  The reader counts down what is left of the entry while it reads the
groups, and so a group may end where the entry does but not after it (`accepts_localGroups`).
-/

namespace FlatWasm

open Reader

/-! ## Constant expressions -/

namespace Binary

theorem accepts_constImmediate (opcode : UInt8) :
    (constImmediate opcode).Accepts fun _ taken => ConstExpr.Immediate opcode taken := by
  refine ⟨fun {u taken} h => ?_, fun {bytes} rest u h => ?_⟩
  · cases h with
    | i32Const h => exact (((accepts_signedNumber (by decide)).reads h).map).mapError
    | i64Const h => exact (((accepts_signedNumber (by decide)).reads h).map).mapError
    | f32Const h => exact ((accepts_skip 4).reads h).mapError
    | f64Const h => exact ((accepts_skip 8).reads h).mapError
    | globalGet h => exact ((accepts_number.reads h).map).mapError
  · have hsigned : ∀ {bits : ℕ}, 0 < bits →
        inside .constValue (do let _ ← signedNumber bits) bytes = .ok (u, rest) →
        ∃ taken, bytes = taken ++ rest ∧ ∃ v, Leb128.Signed bits taken v := by
      intro bits h0 h
      obtain ⟨v, taken, mid, rfl, hv, hmid⟩ :=
        (accepts_signedNumber h0).of_bind (mapError_eq_ok_iff.mp h)
      obtain ⟨-, rfl⟩ := pure_eq_ok_iff.mp hmid
      exact ⟨taken, rfl, v, hv⟩
    unfold constImmediate at h
    split at h
    · next ho =>
      obtain ⟨taken, rfl, v, hv⟩ := hsigned (by decide) h
      exact ⟨taken, rfl, ho ▸ .i32Const hv⟩
    split at h
    · next ho =>
      obtain ⟨taken, rfl, v, hv⟩ := hsigned (by decide) h
      exact ⟨taken, rfl, ho ▸ .i64Const hv⟩
    split at h
    · next ho =>
      obtain ⟨taken, rfl, hlen⟩ := (accepts_inside (accepts_skip 4) _).exists_taken h
      exact ⟨taken, rfl, ho ▸ .f32Const hlen⟩
    split at h
    · next ho =>
      obtain ⟨taken, rfl, hlen⟩ := (accepts_inside (accepts_skip 8) _).exists_taken h
      exact ⟨taken, rfl, ho ▸ .f64Const hlen⟩
    split at h
    · next ho =>
      obtain ⟨x, taken, mid, rfl, hx, hmid⟩ := accepts_number.of_bind (mapError_eq_ok_iff.mp h)
      obtain ⟨-, rfl⟩ := pure_eq_ok_iff.mp hmid
      exact ⟨taken, rfl, ho ▸ .globalGet hx⟩
    · cases h

theorem accepts_constExpr : constExpr.Accepts ConstExpr.Written := by
  refine ⟨?_, fun {bytes} rest e h => ?_⟩
  · rintro e taken ⟨hi⟩
    have himm := (accepts_constImmediate e.opcode).withBytes.reads (a := ((), e.data)) ⟨rfl, hi⟩
    exact ((accepts_inside accepts_byte _).reads rfl).bind
      (himm.bind (((accepts_inside accepts_byte _).reads rfl).bind (reads_pure e)))
  · obtain ⟨opcode, os, mid, rfl, rfl, h₁⟩ := (accepts_inside accepts_byte _).of_bind h
    obtain ⟨⟨u, data⟩, ds, mid₁, rfl, ⟨rfl, hi⟩, h₂⟩ :=
      (accepts_constImmediate opcode).withBytes.of_bind h₁
    obtain ⟨last, ls, mid₂, rfl, rfl, h₃⟩ := (accepts_inside accepts_byte _).of_bind h₂
    split at h₃
    · cases h₃
    · next hlast =>
      obtain ⟨rfl, rfl⟩ := pure_eq_ok_iff.mp h₃
      obtain rfl : last = Opcode.end := not_not.mp hlast
      exact ⟨opcode :: (data ++ [Opcode.end]), by simp, .mk hi⟩

end Binary

/-! ## Imports, globals and exports -/

inductive ImportDesc.Written : ImportDesc → List UInt8 → Prop where
  | func {x : UInt32} {bs : List UInt8} (h : Binary.Word x bs) : Written (.func x) bs
  | table {l : Limits} {bs : List UInt8} (h : l.WrittenTable bs) : Written (.table (some l)) bs
  | memory {l : Limits} {bs : List UInt8} (h : l.Written bs) : Written (.memory (some l)) bs
  | global {t : GlobalType} {bs : List UInt8} (h : t.Written bs) : Written (.global (some t)) bs

inductive Import.Written (im : Import) : List UInt8 → Prop where
  | mk {ms ns ds : List UInt8} (hm : Binary.Name im.module ms) (hn : Binary.Name im.name ns)
      (hd : im.desc.Written ds) : Written im (ms ++ (ns ++ (im.desc.kind.code :: ds)))

inductive Global.Written : Global → List UInt8 → Prop where
  | mk {type : GlobalType} {init : ConstExpr} {ts is : List UInt8} (ht : type.Written ts)
      (hi : init.Written is) : Written ⟨some type, some init⟩ (ts ++ is)

inductive Export.Written (e : Export) : List UInt8 → Prop where
  | mk {ns xs : List UInt8} (hk : e.kind.code ≤ 3) (hn : Binary.Name e.name ns)
      (hx : Binary.Word e.index xs) : Written e (ns ++ (e.kind.code :: xs))

namespace Binary

theorem accepts_importDesc (kind : ExternKind) :
    (importDesc kind).Accepts fun desc taken => desc.kind = kind ∧ desc.Written taken := by
  refine ⟨?_, fun {bytes} rest desc h => ?_⟩
  · rintro desc taken ⟨rfl, hd⟩
    cases hd with
    | func h => exact (accepts_number.reads h).map
    | table h => exact (accepts_tableType.reads h).map
    | memory h => exact (accepts_limits.reads h).map
    | global h => exact (accepts_globalType.reads h).map
  · unfold importDesc at h
    split at h
    · next hk =>
      obtain ⟨taken, rfl, x, rfl, hx⟩ := (accepts_number.map ImportDesc.func).exists_taken h
      exact ⟨taken, rfl, hk.symm, .func hx⟩
    split at h
    · next hk =>
      obtain ⟨taken, rfl, l, rfl, hl⟩ :=
        (accepts_tableType.map fun l => ImportDesc.table (some l)).exists_taken h
      exact ⟨taken, rfl, hk.symm, .table hl⟩
    split at h
    · next hk =>
      obtain ⟨taken, rfl, l, rfl, hl⟩ :=
        (accepts_limits.map fun l => ImportDesc.memory (some l)).exists_taken h
      exact ⟨taken, rfl, hk.symm, .memory hl⟩
    split at h
    · next hk =>
      obtain ⟨taken, rfl, t, rfl, ht⟩ :=
        (accepts_globalType.map fun t => ImportDesc.global (some t)).exists_taken h
      exact ⟨taken, rfl, hk.symm, .global ht⟩
    · cases h

theorem accepts_importItem (i : ℕ) : (importItem i).Accepts Import.Written := by
  refine ⟨?_, fun {bytes} rest im h => ?_⟩
  · rintro im taken ⟨hm, hn, hd⟩
    exact ((accepts_name _).reads hm).bind (((accepts_name _).reads hn).bind
      (((accepts_inside accepts_byte _).reads rfl).bind
        ((accepts_inside (accepts_importDesc _) _).reads ⟨rfl, hd⟩).map))
  · obtain ⟨module, ms, mid, rfl, hm, h₁⟩ := (accepts_name _).of_bind h
    obtain ⟨item, ns, mid₁, rfl, hn, h₂⟩ := (accepts_name _).of_bind h₁
    obtain ⟨kind, ks, mid₂, rfl, rfl, h₃⟩ := (accepts_inside accepts_byte _).of_bind h₂
    obtain ⟨desc, ds, mid₃, rfl, ⟨hk, hd⟩, h₄⟩ :=
      (accepts_inside (accepts_importDesc _) _).of_bind h₃
    obtain ⟨rfl, rfl⟩ := pure_eq_ok_iff.mp h₄
    obtain rfl : desc.kind.code = kind := congrArg ExternKind.code hk
    exact ⟨ms ++ (ns ++ (desc.kind.code :: ds)), by simp, .mk hm hn hd⟩

theorem accepts_globalItem : globalItem.Accepts Global.Written := by
  refine ⟨?_, fun {bytes} rest g h => ?_⟩
  · rintro g taken hg
    cases hg with
    | mk ht hi => exact (accepts_globalType.reads ht).bind (accepts_constExpr.reads hi).map
  · obtain ⟨type, ts, mid, rfl, ht, h₁⟩ := accepts_globalType.of_bind h
    obtain ⟨init, is, mid₁, rfl, hi, h₂⟩ := accepts_constExpr.of_bind h₁
    obtain ⟨rfl, rfl⟩ := pure_eq_ok_iff.mp h₂
    exact ⟨ts ++ is, by rw [List.append_assoc], .mk ht hi⟩

theorem accepts_exportItem (i : ℕ) : (exportItem i).Accepts Export.Written := by
  refine ⟨?_, fun {bytes} rest e h => ?_⟩
  · rintro e taken ⟨hk, hn, hx⟩
    refine ((accepts_name _).reads hn).bind (((accepts_inside accepts_byte _).reads rfl).bind ?_)
    dsimp only
    rw [if_neg (UInt8.not_lt.mpr hk)]
    exact ((accepts_inside accepts_number _).reads hx).map
  · obtain ⟨name, ns, mid, rfl, hn, h₁⟩ := (accepts_name _).of_bind h
    obtain ⟨kind, ks, mid₁, rfl, rfl, h₂⟩ := (accepts_inside accepts_byte _).of_bind h₁
    split at h₂
    · cases h₂
    · next hk =>
      obtain ⟨index, xs, mid₂, rfl, hx, h₃⟩ := (accepts_inside accepts_number _).of_bind h₂
      obtain ⟨rfl, rfl⟩ := pure_eq_ok_iff.mp h₃
      exact ⟨ns ++ (kind :: xs), by simp, .mk (UInt8.not_lt.mp hk) hn hx⟩

end Binary

/-! ## Segments -/

/-- A segment up to what it writes.  Table or memory zero need not be named, and where it is, `mark` follows the offset. -/
inductive Binary.Segment (mark : List UInt8) : UInt32 → ConstExpr → List UInt8 → List UInt8 → Prop where
  | first {offset : ConstExpr} {fs os init : List UInt8} (hf : Binary.Word 0 fs)
      (ho : offset.Written os) : Segment mark 0 offset init (fs ++ (os ++ init))
  | named {x : UInt32} {offset : ConstExpr} {fs xs os init : List UInt8} (hf : Binary.Word 2 fs)
      (hx : Binary.Word x xs) (ho : offset.Written os) :
      Segment mark x offset init (fs ++ (xs ++ (os ++ (mark ++ init))))

/-- Named tables can be of several kinds, of which zero is that of functions. -/
inductive ElementSegment.Written : ElementSegment → List UInt8 → Prop where
  | mk {table : UInt32} {offset : ConstExpr} {init : List UInt32} {is bs : List UInt8}
      (hi : Binary.Vector Binary.Word init is) (h : Binary.Segment [0] table offset is bs) :
      Written ⟨table, some offset, init⟩ bs

inductive DataSegment.Written : DataSegment → List UInt8 → Prop where
  | mk {memory : UInt32} {offset : ConstExpr} {init is bs : List UInt8}
      (hi : Binary.Sized init is) (h : Binary.Segment [] memory offset is bs) :
      Written ⟨memory, some offset, init⟩ bs

namespace Binary

theorem accepts_functionIndices : functionIndices.Accepts (Vector Word) :=
  accepts_counted (fun _ => accepts_inside accepts_number _) nofun _

theorem accepts_elementItem : elementItem.Accepts ElementSegment.Written := by
  have hne : ¬(0 : UInt32) = 2 := by decide
  refine ⟨fun {e taken} he => ?_, fun {bytes} rest e h => ?_⟩
  · obtain ⟨hi, hs⟩ := he
    cases hs with
    | first hf ho =>
      refine ((accepts_inside accepts_number _).reads hf).bind ?_
      simp only [ne_eq, not_true_eq_false, false_and, if_false, if_neg hne, pure_bind]
      exact ((accepts_inside accepts_constExpr _).reads ho).bind (accepts_functionIndices.reads hi).map
    | named hf ht ho =>
      refine ((accepts_inside accepts_number _).reads hf).bind ?_
      simp only [ne_eq, not_true_eq_false, and_false, if_false, if_true]
      exact ((accepts_inside accepts_number _).reads ht).bind
        (((accepts_inside accepts_constExpr _).reads ho).bind
          (((accepts_inside accepts_byte _).reads rfl).bind (accepts_functionIndices.reads hi).map))
  · obtain ⟨form, fs, mid, rfl, hf, h₁⟩ := (accepts_inside accepts_number _).of_bind h
    by_cases hzero : form = 0
    · subst hzero
      simp only [ne_eq, not_true_eq_false, false_and, if_false, if_neg hne, pure_bind] at h₁
      obtain ⟨offset, os, mid₁, rfl, ho, h₂⟩ := (accepts_inside accepts_constExpr _).of_bind h₁
      obtain ⟨init, is, mid₂, rfl, hi, h₃⟩ := accepts_functionIndices.of_bind h₂
      obtain ⟨rfl, rfl⟩ := pure_eq_ok_iff.mp h₃
      exact ⟨fs ++ (os ++ is), by simp, .mk hi (.first hf ho)⟩
    by_cases htwo : form = 2
    · subst htwo
      simp only [ne_eq, not_true_eq_false, and_false, if_false, if_true] at h₁
      obtain ⟨table, ts, mid₁, rfl, ht, h₂⟩ := (accepts_inside accepts_number _).of_bind h₁
      obtain ⟨offset, os, mid₂, rfl, ho, h₃⟩ := (accepts_inside accepts_constExpr _).of_bind h₂
      obtain ⟨kind, ks, mid₃, rfl, rfl, h₄⟩ := (accepts_inside accepts_byte _).of_bind h₃
      split at h₄
      · cases h₄
      · next hkind =>
        obtain ⟨init, is, mid₄, rfl, hi, h₅⟩ := accepts_functionIndices.of_bind h₄
        obtain ⟨rfl, rfl⟩ := pure_eq_ok_iff.mp h₅
        obtain rfl : kind = 0 := not_not.mp hkind
        exact ⟨fs ++ (ts ++ (os ++ ([0] ++ is))), by simp, .mk hi (.named hf ht ho)⟩
    · rw [if_pos ⟨hzero, htwo⟩] at h₁
      cases h₁

/-- The bytes of a data segment, after its memory and its offset. -/
theorem accepts_dataInit (memory : UInt32) (offset : ConstExpr) :
    Accepts (do
      let size ← inside .dataLength number
      fits .data size
      let init ← take size.toNat
      return ({ memory, offset := some offset, init } : DataSegment)) fun d taken =>
        ∃ init, Sized init taken ∧ d = ⟨memory, some offset, init⟩ := by
  refine accepts_sized (G := fun (d : DataSegment) init => d = ⟨memory, some offset, init⟩) _ _
    fun init => ⟨?_, fun {bytes} rest d h => ?_⟩
  · rintro d taken ⟨rfl, rfl⟩
    exact reads_pure _
  · obtain ⟨rfl, rfl⟩ := pure_eq_ok_iff.mp h
    exact ⟨[], rfl, rfl, rfl⟩

theorem accepts_dataItem : dataItem.Accepts DataSegment.Written := by
  have hne : ¬(0 : UInt32) = 2 := by decide
  refine ⟨fun {d taken} hd => ?_, fun {bytes} rest d h => ?_⟩
  · obtain ⟨hi, hs⟩ := hd
    cases hs with
    | first hf ho =>
      refine ((accepts_inside accepts_number _).reads hf).bind ?_
      simp only [ne_eq, not_true_eq_false, false_and, if_false, if_neg hne, pure_bind]
      exact ((accepts_inside accepts_constExpr _).reads ho).bind
        ((accepts_dataInit _ _).reads ⟨_, hi, rfl⟩)
    | named hf hm ho =>
      refine ((accepts_inside accepts_number _).reads hf).bind ?_
      simp only [ne_eq, not_true_eq_false, and_false, if_false, if_true]
      exact ((accepts_inside accepts_number _).reads hm).bind
        (((accepts_inside accepts_constExpr _).reads ho).bind
          ((accepts_dataInit _ _).reads ⟨_, hi, rfl⟩))
  · obtain ⟨form, fs, mid, rfl, hf, h₁⟩ := (accepts_inside accepts_number _).of_bind h
    by_cases hzero : form = 0
    · subst hzero
      simp only [ne_eq, not_true_eq_false, false_and, if_false, if_neg hne, pure_bind] at h₁
      obtain ⟨offset, os, mid₁, rfl, ho, h₂⟩ := (accepts_inside accepts_constExpr _).of_bind h₁
      obtain ⟨is, rfl, init, hi, rfl⟩ := (accepts_dataInit _ _).exists_taken h₂
      exact ⟨fs ++ (os ++ is), by simp, .mk hi (.first hf ho)⟩
    by_cases htwo : form = 2
    · subst htwo
      simp only [ne_eq, not_true_eq_false, and_false, if_false, if_true] at h₁
      obtain ⟨memory, ms, mid₁, rfl, hm, h₂⟩ := (accepts_inside accepts_number _).of_bind h₁
      obtain ⟨offset, os, mid₂, rfl, ho, h₃⟩ := (accepts_inside accepts_constExpr _).of_bind h₂
      obtain ⟨is, rfl, init, hi, rfl⟩ := (accepts_dataInit _ _).exists_taken h₃
      exact ⟨fs ++ (ms ++ (os ++ ([] ++ is))), by simp, .mk hi (.named hf hm ho)⟩
    · rw [if_pos ⟨hzero, htwo⟩] at h₁
      cases h₁

end Binary

/-! ## Code -/

/-- A group of locals: how many, and their type. -/
inductive Binary.Group (g : ℕ × ValueType) : List UInt8 → Prop where
  | mk {ns : List UInt8} (hn : Binary.Length g.1 ns) (ht : g.2.isNumeric = true) :
      Group g (ns ++ [g.2.code])

/-- The locals and the body of a function, after their length. -/
inductive Code.Written (c : Code) : List UInt8 → Prop where
  | mk {groups : List (ℕ × ValueType)} {ns gs bs : List UInt8}
      (hlocals : c.locals = Locals.ofGroups groups) (hcount : c.locals.length < 2 ^ 32)
      (hlast : c.body.getLast? = some Opcode.end) (hn : Binary.Length groups.length ns)
      (hg : Items Binary.Group groups gs) (hs : Binary.Sized (ns ++ (gs ++ c.body)) bs) :
      Written c bs

namespace Binary

/-- As long as bytes of the entry are left, groups are read as the grammar says. -/
theorem accepts_localGroups (count : ℕ) {left : ℤ} (hleft : 0 ≤ left) :
    (localGroups count left).Accepts fun p taken => p.1.length = count ∧ Items Group p.1 taken ∧
      p.2 = left - taken.length ∧ 0 ≤ p.2 := by
  induction count generalizing left with
  | zero =>
    refine ⟨?_, fun {bytes} rest p h => ?_⟩
    · rintro ⟨groups, left'⟩ taken ⟨hlen, hg, hleft', -⟩
      cases hg with
      | nil =>
        obtain rfl : left' = left := by simpa using hleft'
        exact reads_pure _
      | cons => cases hlen
    · obtain ⟨rfl, rfl⟩ := pure_eq_ok_iff.mp h
      exact ⟨[], rfl, rfl, .nil, by simp, hleft⟩
  | succ count ih =>
    refine ⟨?_, fun {bytes} rest p h => ?_⟩
    · rintro ⟨groups, left'⟩ taken ⟨hlen, hg, hleft', hnonneg⟩
      cases hg with
      | nil => cases hlen
      | @cons g groups taken taken' hg hgs =>
        obtain ⟨hn, ht⟩ := hg
        rename_i ns
        rw [List.append_assoc]
        have hcount := (accepts_inside accepts_sizedNumber .localCount).reads
          (a := (UInt32.ofNat g.1, ns.length)) ⟨rfl, hn.word⟩
        have hsize : (((ns ++ [g.2.code]) ++ taken').length : ℤ) =
            ((ns.length + 1 : ℕ) : ℤ) + taken'.length := by
          rw [List.length_append, List.length_append, List.length_singleton, Nat.cast_add]
        dsimp only at hleft' hnonneg
        rw [hsize] at hleft'
        have hrest : 0 ≤ left - ((ns.length + 1 : ℕ) : ℤ) := by omega
        refine hcount.bind ?_
        dsimp only
        rw [if_neg (not_lt.mpr hrest)]
        refine ((accepts_inside accepts_byte _).reads rfl).bind ?_
        rw [if_neg (by simp [ht])]
        have hgroups := (ih hrest).reads (a := (groups, left'))
          ⟨Nat.succ.inj hlen, hgs, by dsimp only; omega, hnonneg⟩
        have hg1 : (UInt32.ofNat g.1).toNat = g.1 := UInt32.toNat_ofNat_of_lt' hn.lt
        rw [hg1]
        exact hgroups.map
    · obtain ⟨⟨n, length⟩, ns, mid, rfl, ⟨hlength, hn⟩, h₁⟩ :=
        (accepts_inside accepts_sizedNumber _).of_bind h
      dsimp only at h₁ hlength
      split at h₁
      · cases h₁
      · next hneg =>
        obtain ⟨type, ts, mid₁, rfl, rfl, h₂⟩ := (accepts_inside accepts_byte _).of_bind h₁
        split at h₂
        · cases h₂
        · next htype =>
          obtain ⟨⟨groups, left'⟩, gs, mid₂, rfl, ⟨hlen, hg, hleft', hnonneg⟩, h₃⟩ :=
            (ih (not_lt.mp hneg)).of_bind h₂
          obtain ⟨rfl, rfl⟩ := pure_eq_ok_iff.mp h₃
          have ht : (ValueType.mk type).isNumeric = true := by simpa using htype
          refine ⟨(ns ++ [type]) ++ gs, by simp, congrArg Nat.succ hlen,
            .cons (.mk hn ht) hg, ?_, hnonneg⟩
          dsimp only at hleft' ⊢
          rw [hleft', hlength]
          simp
          omega

theorem accepts_codeItem : codeItem.Accepts Code.Written := by
  refine ⟨fun {c taken} hc => ?_, fun {bytes} rest c h => ?_⟩
  · obtain ⟨locals, body⟩ := c
    cases hc with
    | @mk groups ns gs bs hlocals hcount hlast hn hg hs =>
      obtain ⟨hs⟩ := hs
      rename_i ss
      dsimp only at hlocals hcount hlast hs
      subst hlocals
      have hsize : (UInt32.ofNat (ns ++ (gs ++ body)).length).toNat =
          ns.length + (gs.length + body.length) := by
        rw [UInt32.toNat_ofNat_of_lt' hs.lt, List.length_append, List.length_append]
      have hlen : (UInt32.ofNat groups.length).toNat = groups.length :=
        UInt32.toNat_ofNat_of_lt' hn.lt
      refine ((accepts_inside accepts_number _).reads hs.word).bind
        (((accepts_inside accepts_sizedNumber _).reads
          (a := (UInt32.ofNat groups.length, ns.length)) ⟨rfl, hn.word⟩).bind ?_)
      dsimp only
      rw [hsize, hlen, if_neg (by omega)]
      refine ((accepts_localGroups _ (by omega)).reads (a := (groups, (body.length : ℤ)))
        ⟨rfl, hg, by dsimp only; omega, by dsimp only; omega⟩).bind ?_
      dsimp only
      have hfew : ¬UInt32.size ≤ (Locals.ofGroups groups).length := not_le.mpr hcount
      have hbody : Reads (inside .body (take (body.length : ℤ).toNat)) body body :=
        (accepts_inside (accepts_take _) _).reads ⟨rfl, rfl⟩
      rw [if_neg hfew]
      intro rest
      refine bind_eq_ok_iff.mpr ⟨body, rest, hbody rest, ?_⟩
      rw [if_neg (not_not.mpr hlast)]
      rfl
  · obtain ⟨size, ss, mid, rfl, hs, h₁⟩ := (accepts_inside accepts_number _).of_bind h
    obtain ⟨⟨count, length⟩, ns, mid₁, rfl, ⟨hlength, hn⟩, h₂⟩ :=
      (accepts_inside accepts_sizedNumber _).of_bind h₁
    dsimp only at h₂ hlength
    split at h₂
    · cases h₂
    · next hneg =>
      obtain ⟨⟨groups, left⟩, gs, mid₂, rfl, ⟨hlen, hg, hleft, hnonneg⟩, h₃⟩ :=
        (accepts_localGroups _ (not_lt.mp hneg)).of_bind h₂
      dsimp only at h₃ hleft hnonneg hlen hg
      split at h₃
      · cases h₃
      · next hmany =>
        obtain ⟨_, body, mid₃, rfl, ⟨rfl, hbody⟩, h₄⟩ :=
          (accepts_inside (accepts_take _) _).of_bind h₃
        split at h₄
        · cases h₄
        · next hlast =>
          obtain ⟨rfl, rfl⟩ := pure_eq_ok_iff.mp h₄
          have hsize : (ns ++ (gs ++ body)).length = size.toNat := by
            rw [List.length_append, List.length_append]
            omega
          refine ⟨ss ++ (ns ++ (gs ++ body)), by simp, ?_⟩
          refine .mk rfl (not_le.mp hmany) (not_not.mp hlast) ?_ hg (.mk ?_)
          · rw [hlen]
            exact hn
          · rw [hsize]
            exact hs

end Binary

end FlatWasm
