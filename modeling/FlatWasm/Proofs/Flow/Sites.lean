import Mathlib
import FlatWasm.Proofs.Flow.Body

/-!
# A chart of finished code

`Laid` follows the nesting of an expression.  A path through flat code does not: it goes from offset to offset, and a
jump may lead far away.  This module goes from the one view to the other.  A *chart* is a set of offsets, each with the
point that is known there, and it is closed: at every offset of the chart there is an instruction, and wherever control
may go from it, the chart has an offset that knows no more than what is known on the way.

A `Site` is what there can be at an offset of a chart: the instruction, and the places where it goes.  Every claim about
all paths follows from one case distinction on sites.

## Why a chart knows one point at an offset

Where paths meet, each of them knows at least the point of the chart.  Since `a ≤ b` says that the heights are the same,
all paths come to an offset with the same height.

## Why regions have an entry

The code of an expression may be empty.  Then its first offset is where the next code starts, and the chart of the
expression does not have it.  `Enters` says that one of the two has it.  A branch may also leave the region, and this is
`Arrives`.  The two are kept apart since the body of a loop is entered at the offset of its own label.
-/

namespace FlatWasm

open Source Lowering

/-! ## Sites -/

/-- A height that is not above one of which `bound` holds. -/
def Listing.Within (c : Listing) (h : ℕ) : Prop :=
  ∃ k, c.bound k ∧ h ≤ k

/-- A branch to a label that is taken where `p` is known; `L` says where control may go. -/
structure Exit.Taken (c : Listing) (L : ℕ → Point → Prop) (x : Exit) (p : Point) : Prop where
  carried : x.base + x.arity ≤ p.height
  lands : ∀ t, x.target = some t → t + 1 < 2 ^ 32 ∧ L t ⟨x.base + x.arity, p.selected⟩
  returns : x.target = none → x.base = 0 ∧ x.arity = c.scope.results.length

/-- What there can be at offset `n`, where `p` is known; `L` says where control may go. -/
inductive Site (c : Listing) (L : ℕ → Point → Prop) (n : ℕ) (p : Point) : Flat.Instr → Prop where
  | unreachable : Site c L n p .unreachable
  /-- The marker before an instruction that works on a store. -/
  | use {i : Instr} {kind : Flat.StoreKind} {store : Location} (hs : i.store? = some (kind, store))
      (hl : L (n + 6) ⟨p.height, i.selecting p.selected⟩) :
      Site c L n p (.use kind store.origin.code store.position)
  | plain {depth a b : ℕ} {o : Op} {i : Instr} {j : Flat.Instr}
      (ho : o.resolve c.scope depth = some i) (hj : i.flat? = some j)
      (he : i.effect? = some (a, b)) (ha : a ≤ p.height)
      (hm : i.selecting p.selected = p.selected) (hs : c.source n = some i)
      (hl : L (n + j.size) ⟨p.height - a + b, i.forgetting p.selected⟩) : Site c L n p j
  | jump {t : ℕ} (ht : t < 2 ^ 32) (hl : L t p) : Site c L n p (.jump (UInt32.ofNat t))
  | jumpUnless {t h : ℕ} (ht : t < 2 ^ 32) (hh : p.height = h + 1) (hl : L t ⟨h, p.selected⟩)
      (hn : L (n + 5) ⟨h, p.selected⟩) : Site c L n p (.jumpUnless (UInt32.ofNat t))
  | branch {x : Exit} {t : ℕ} (hx : x.target = some t) (hb : c.Within p.height)
      (ha : x.Taken c L p) :
      Site c L n p (BranchKind.always.instr (UInt32.ofNat x.arity)
        (UInt32.ofNat (x.dropped p.height)) (UInt32.ofNat t))
  | branchIf {x : Exit} {t h : ℕ} {j : Flat.Instr} (hx : x.target = some t)
      (hb : c.Within p.height) (hh : p.height = h + 1) (ha : x.Taken c L ⟨h, p.selected⟩)
      (hj : j = BranchKind.ifNonzero.instr (UInt32.ofNat x.arity) (UInt32.ofNat (x.dropped h))
        (UInt32.ofNat t)) (hn : L (n + j.size) ⟨h, p.selected⟩) : Site c L n p j
  | ret {x : Exit} (hx : x.target = none) (hb : c.Within p.height) (ha : x.Taken c L p) :
      Site c L n p (.ret (UInt32.ofNat x.arity)
        (UInt32.ofNat (x.dropped p.height) + c.scope.localCount))
  | brTable {x : Exit} {xs : List Exit} {h : ℕ} (hb : c.Within p.height) (hh : p.height = h + 1)
      (harity : ∀ y ∈ xs ++ [x], y.arity = x.arity)
      (ha : ∀ y ∈ xs ++ [x], y.Taken c L ⟨h, p.selected⟩) :
      Site c L n p (.brTable (UInt32.ofNat x.arity) (xs.map (·.entry c.scope h))
        (x.entry c.scope h))

section

variable {c : Listing} {L L' : ℕ → Point → Prop} {n : ℕ} {p : Point} {j : Flat.Instr}

theorem Exit.Taken.mono {x : Exit} (h : x.Taken c L p) (hL : ∀ n p, L n p → L' n p) :
    x.Taken c L' p :=
  ⟨h.carried, fun t ht => ⟨(h.lands t ht).1, hL _ _ (h.lands t ht).2⟩, h.returns⟩

theorem Site.mono (h : Site c L n p j) (hL : ∀ n p, L n p → L' n p) : Site c L' n p j := by
  cases h with
  | unreachable => exact .unreachable
  | use hs hl => exact .use hs (hL _ _ hl)
  | plain ho hj he ha hm hs hl => exact .plain ho hj he ha hm hs (hL _ _ hl)
  | jump ht hl => exact .jump ht (hL _ _ hl)
  | jumpUnless ht hh hl hn => exact .jumpUnless ht hh (hL _ _ hl) (hL _ _ hn)
  | branch hx hb ha => exact .branch hx hb (ha.mono hL)
  | branchIf hx hb hh ha hj hn => exact .branchIf hx hb hh (ha.mono hL) hj (hL _ _ hn)
  | ret hx hb ha => exact .ret hx hb (ha.mono hL)
  | brTable hb hh harity ha => exact .brTable hb hh harity fun y hy => (ha y hy).mono hL

end

/-! ## Charts -/

/-- The chart, or what is known at its end, has an offset and knows no more than `p` there. -/
def Enters (A : Set (ℕ × Point)) (pc' : ℕ) (q : Option Point) (n : ℕ) (p : Point) : Prop :=
  (∃ r, (n, r) ∈ A ∧ r ≤ p) ∨ n = pc' ∧ ∃ r ∈ q, r ≤ p

/-- The same, or a label around the code has it. -/
def Arrives (A : Set (ℕ × Point)) (exits : List Exit) (pc' : ℕ) (q : Option Point) (n : ℕ)
    (p : Point) : Prop :=
  Enters A pc' q n p ∨ ∃ x ∈ exits, x.target = some n ∧ x.point ≤ p

/-- A chart of the code from one offset to another. -/
structure Charts (c : Listing) (exits : List Exit) (A : Set (ℕ × Point)) (pc pc' : ℕ)
    (q : Option Point) : Prop where
  le : pc ≤ pc'
  range : ∀ n p, (n, p) ∈ A → pc ≤ n ∧ n < pc'
  unique : ∀ n p p', (n, p) ∈ A → (n, p') ∈ A → p = p'
  covers : ∀ n j, pc ≤ n → n < pc' → Flat.Spells c.code n [j] → ∃ p, (n, p) ∈ A
  site : ∀ n p, (n, p) ∈ A →
    ∃ j, Flat.Spells c.code n [j] ∧ Site c (Arrives A exits pc' q) n p j

variable {c : Listing} {exits exits₁ : List Exit} {A A₁ A₂ : Set (ℕ × Point)} {pc pc₁ pc' n : ℕ}
  {q q₁ : Option Point} {p p' : Point}

theorem Enters.trans (h : Enters A₁ pc₁ q₁ n p) (hA : A₁ ⊆ A)
    (hend : ∀ r ∈ q₁, Enters A pc' q pc₁ r) : Enters A pc' q n p := by
  rcases h with ⟨r, hr, hle⟩ | ⟨rfl, r, hr, hle⟩
  · exact .inl ⟨r, hA hr, hle⟩
  · rcases hend r hr with ⟨s, hs, hle'⟩ | ⟨hn, s, hs, hle'⟩
    · exact .inl ⟨s, hs, Point.le_trans hle' hle⟩
    · exact .inr ⟨hn, s, hs, Point.le_trans hle' hle⟩

theorem Enters.mono (h : Enters A pc' q n p) (hle : p ≤ p') : Enters A pc' q n p' := by
  rcases h with ⟨r, hr, hr'⟩ | ⟨hn, r, hr, hr'⟩
  · exact .inl ⟨r, hr, Point.le_trans hr' hle⟩
  · exact .inr ⟨hn, r, hr, Point.le_trans hr' hle⟩

theorem Enters.subset (h : Enters A₁ pc' q n p) (hA : A₁ ⊆ A) : Enters A pc' q n p :=
  h.trans hA fun r hr => .inr ⟨rfl, r, hr, r.le_refl⟩

theorem Arrives.subset (h : Arrives A₁ exits pc' q n p) (hA : A₁ ⊆ A) :
    Arrives A exits pc' q n p :=
  h.imp_left fun h => h.subset hA

namespace Charts

/-- A chart of no code. -/
theorem empty (c : Listing) (exits : List Exit) (pc : ℕ) (q : Option Point) :
    Charts c exits ∅ pc pc q :=
  ⟨Nat.le_refl _, nofun, nofun, fun _ _ hle hlt => absurd hle (Nat.not_le.mpr hlt), nofun⟩

/-- One more instruction in front. -/
theorem cons {j : Flat.Instr} (h : Charts c exits A (pc + j.size) pc' q)
    (hj : Flat.Spells c.code pc [j])
    (hs : Site c (Arrives (insert (pc, p) A) exits pc' q) pc p j) :
    Charts c exits (insert (pc, p) A) pc pc' q := by
  have hle := h.le
  have hpos := j.size_pos
  refine ⟨by omega, ?_, ?_, ?_, ?_⟩
  · rintro n r (heq | hr)
    · cases heq
      omega
    · have hrange := h.range n r hr
      omega
  · rintro n r r' (heq | hr) (heq' | hr')
    · cases heq
      cases heq'
      rfl
    · cases heq
      have hrange := h.range _ _ hr'
      omega
    · cases heq'
      have hrange := h.range _ _ hr
      omega
    · exact h.unique n r r' hr hr'
  · intro n i hge hlt hi
    rcases Nat.lt_or_ge n (pc + j.size) with hn | hn
    · exact ⟨p, .inl (congrArg (·, p) (hj.eq_of_overlap hi hge hn))⟩
    · obtain ⟨r, hr⟩ := h.covers n i hn hlt hi
      exact ⟨r, .inr hr⟩
  · rintro n r (heq | hr)
    · cases heq
      exact ⟨j, hj, hs⟩
    · obtain ⟨j', hj', hs'⟩ := h.site n r hr
      exact ⟨j', hj', hs'.mono fun m s hm => hm.subset (Set.subset_insert _ _)⟩

/-- Code in front that goes to the code after it, or to where that may go. -/
theorem append (h₁ : Charts c exits₁ A₁ pc pc₁ q₁) (h₂ : Charts c exits A₂ pc₁ pc' q)
    (hto : ∀ n p, Arrives A₁ exits₁ pc₁ q₁ n p → Arrives (A₁ ∪ A₂) exits pc' q n p) :
    Charts c exits (A₁ ∪ A₂) pc pc' q := by
  have hle₁ := h₁.le
  have hle₂ := h₂.le
  refine ⟨by omega, ?_, ?_, ?_, ?_⟩
  · rintro n r (hr | hr)
    · have hrange := h₁.range n r hr
      omega
    · have hrange := h₂.range n r hr
      omega
  · rintro n r r' (hr | hr) (hr' | hr')
    · exact h₁.unique n r r' hr hr'
    · have hrange₁ := h₁.range n r hr
      have hrange₂ := h₂.range n r' hr'
      omega
    · have hrange₁ := h₁.range n r' hr'
      have hrange₂ := h₂.range n r hr
      omega
    · exact h₂.unique n r r' hr hr'
  · intro n i hge hlt hi
    rcases Nat.lt_or_ge n pc₁ with hn | hn
    · obtain ⟨r, hr⟩ := h₁.covers n i hge hn hi
      exact ⟨r, .inl hr⟩
    · obtain ⟨r, hr⟩ := h₂.covers n i hn hlt hi
      exact ⟨r, .inr hr⟩
  · rintro n r (hr | hr)
    · obtain ⟨j, hj, hs⟩ := h₁.site n r hr
      exact ⟨j, hj, hs.mono hto⟩
    · obtain ⟨j, hj, hs⟩ := h₂.site n r hr
      exact ⟨j, hj, hs.mono fun m s hm => hm.subset Set.subset_union_right⟩

/-- The code of a frame.  Its label `x` is an offset of the chart, and so is its end. -/
theorem frame {x : Exit} (h₁ : Charts c (x :: exits) A₁ pc pc₁ q₁)
    (h₂ : Charts c exits A₂ pc₁ pc' q) (hend : ∀ r ∈ q₁, Enters A₂ pc' q pc₁ r)
    (hx : ∀ t, x.target = some t → Enters (A₁ ∪ A₂) pc' q t x.point) :
    Charts c exits (A₁ ∪ A₂) pc pc' q := by
  refine h₁.append h₂ ?_
  rintro n p (henters | ⟨y, hy, ht, hle⟩)
  · exact .inl (henters.trans Set.subset_union_left fun r hr =>
      (hend r hr).subset Set.subset_union_right)
  · rcases List.mem_cons.mp hy with rfl | hy
    · exact .inl ((hx n ht).mono hle)
    · exact .inr ⟨y, hy, ht, hle⟩

end Charts

/-! ## Laid out code has a chart -/

/-- The labels around code are in it, and to branch to the outermost is to return. -/
structure ExitsKnown (c : Listing) (exits : List Exit) : Prop where
  target_lt : ∀ x ∈ exits, ∀ t, x.target = some t → t < (Flat.encode c.code).length
  outermost : ∀ x ∈ exits, x.target = none → x.base = 0 ∧ x.arity = c.scope.results.length

theorem ExitsKnown.cons {x : Exit} {t : ℕ} (h : ExitsKnown c exits) (hx : x.target = some t)
    (ht : t < (Flat.encode c.code).length) : ExitsKnown c (x :: exits) := by
  refine ⟨?_, ?_⟩ <;> rw [List.forall_mem_cons]
  · refine ⟨fun t' ht' => ?_, h.target_lt⟩
    cases hx.symm.trans ht'
    exact ht
  · refine ⟨fun hnone => ?_, h.outermost⟩
    cases hx.symm.trans hnone

/-- Code with some chart; the chart has the first offset. -/
def Charted (c : Listing) (exits : List Exit) (pc : ℕ) (p : Option Point) (pc' : ℕ)
    (q : Option Point) : Prop :=
  ∃ A, Charts c exits A pc pc' q ∧ ∀ r ∈ p, Enters A pc' q pc r

/-- A branch from laid out code is taken to a label around it. -/
theorem Exit.Admits.taken {x : Exit} {L : ℕ → Point → Prop} (h : x.Admits (floor exits) p)
    (hx : x ∈ exits) (hexits : ExitsKnown c exits)
    (hsize : (Flat.encode c.code).length < 2 ^ 32)
    (hL : ∀ x ∈ exits, ∀ t s, x.target = some t → x.point ≤ s → L t s) : x.Taken c L p := by
  have hcarried := h.carried
  have hbase := h.base_le
  refine ⟨by omega, fun t ht => ⟨?_, hL x hx t _ ht ⟨rfl, h.selected_le⟩⟩, hexits.outermost x hx⟩
  have hlt := hexits.target_lt x hx t ht
  omega

/-- One instruction in front of code with a chart. -/
theorem Charted.cons {j : Flat.Instr} {r : Option Point}
    (h : Charted c exits (pc + j.size) r pc' q) (hj : Flat.Spells c.code pc [j])
    (hs : ∀ L : ℕ → Point → Prop, (∀ s ∈ r, L (pc + j.size) s) →
      (∀ x ∈ exits, ∀ t s, x.target = some t → x.point ≤ s → L t s) → Site c L pc p j) :
    Charted c exits pc (some p) pc' q := by
  obtain ⟨A, hA, henter⟩ := h
  refine ⟨insert (pc, p) A, hA.cons hj (hs _ ?_ ?_), ?_⟩
  · exact fun s hs => .inl ((henter s hs).subset (Set.subset_insert _ _))
  · exact fun x hx t s ht hle => .inr ⟨x, hx, ht, hle⟩
  · intro s hs
    cases hs
    exact .inl ⟨p, Set.mem_insert _ _, p.le_refl⟩

/-- An instruction has its marker, or needs none. -/
theorem Instr.markers_cases (i : Instr) (s : Selection) :
    i.markers s = [] ∨ ∃ kind store, i.store? = some (kind, store) ∧
      i.markers s = [.use kind store.origin.code store.position] := by
  rw [markers]
  split
  · next kind store hs =>
    split
    · exact .inl rfl
    · exact .inr ⟨kind, store, hs, rfl⟩
  · exact .inl rfl

theorem Instr.selecting_selecting (i : Instr) (s : Selection) :
    i.selecting (i.selecting s) = i.selecting s := by
  rw [selecting, selecting]
  split
  · exact Selection.set_eq_self (Selection.get_set_self _ _ _)
  · rfl

theorem Charted.plain {a b depth : ℕ} {o : Op} {i : Instr} {j : Flat.Instr}
    (ho : o.resolve c.scope depth = some i) (hj : i.flat? = some j)
    (he : i.effect? = some (a, b)) (ha : a ≤ p.height)
    (hc : Flat.Spells c.code pc (i.markers p.selected ++ [j]))
    (hs : ∀ n, pc ≤ n → n < pc + (Flat.encode (i.markers p.selected ++ [j])).length →
      c.source n = some i)
    (h : Charted c exits (pc + (Flat.encode (i.markers p.selected ++ [j])).length)
      (some ⟨p.height - a + b, i.forgetting (i.selecting p.selected)⟩) pc' q) :
    Charted c exits pc (some p) pc' q := by
  have hpos := j.size_pos
  -- the instruction itself stands where its store is selected
  have hlast : ∀ n, c.source n = some i → Flat.Spells c.code n [j] →
      Charted c exits (n + j.size)
        (some ⟨p.height - a + b, i.forgetting (i.selecting p.selected)⟩) pc' q →
      Charted c exits n (some ⟨p.height, i.selecting p.selected⟩) pc' q :=
    fun n hn hj' h => h.cons hj' fun L hL _ =>
      .plain ho hj he ha (i.selecting_selecting _) hn (hL _ rfl)
  rcases i.markers_cases p.selected with hm | ⟨kind, store, hk, hm⟩
  · have hsel := Instr.selecting_of_markers_eq_nil hm
    rw [hm, List.nil_append, Flat.length_encode_singleton] at hs h
    rw [hm] at hc
    have hfirst := hlast pc (hs pc (Nat.le_refl _) (by omega)) hc h
    rwa [hsel] at hfirst
  · rw [hm, List.singleton_append, Flat.length_encode_cons, Flat.length_encode_singleton] at hs h
    rw [hm, List.singleton_append] at hc
    rw [show (Flat.Instr.use kind store.origin.code store.position).size = 6 from rfl] at hs h
    rw [← Nat.add_assoc] at h
    exact (hlast (pc + 6) (hs (pc + 6) (by omega) (by omega)) hc.tail h).cons hc.head
      fun L hL _ => .use hk (hL _ rfl)

/-- A condition in front of code that the chart has both outcomes of. -/
theorem Charts.jumpUnless {t h : ℕ} (hA : Charts c exits A (pc + 5) pc' q)
    (hc : Flat.Spells c.code pc [.jumpUnless (UInt32.ofNat t)]) (ht : t < 2 ^ 32)
    (hh : p.height = h + 1) (hto : Enters A pc' q t ⟨h, p.selected⟩)
    (hnext : Enters A pc' q (pc + 5) ⟨h, p.selected⟩) : Charted c exits pc (some p) pc' q := by
  have hsub : A ⊆ insert (pc, p) A := Set.subset_insert _ _
  refine ⟨insert (pc, p) A, hA.cons hc (.jumpUnless ht hh ?_ ?_), ?_⟩
  · exact .inl (hto.subset hsub)
  · exact .inl (hnext.subset hsub)
  · intro s hs
    cases hs
    exact .inl ⟨p, Set.mem_insert _ _, p.le_refl⟩

/-- Code with a chart, and after it more of it. -/
theorem Charted.append {p : Option Point} (h₁ : Charted c exits pc p pc₁ q₁)
    (h₂ : Charted c exits pc₁ q₁ pc' q) : Charted c exits pc p pc' q := by
  obtain ⟨A₁, hA₁, hstart⟩ := h₁
  obtain ⟨A₂, hA₂, hmid⟩ := h₂
  have hto : ∀ n p, Enters A₁ pc₁ q₁ n p → Enters (A₁ ∪ A₂) pc' q n p := fun n p h =>
    h.trans Set.subset_union_left fun r hr => (hmid r hr).subset Set.subset_union_right
  exact ⟨A₁ ∪ A₂, hA₁.append hA₂ fun n p h => h.imp_left (hto n p),
    fun r hr => hto pc r (hstart r hr)⟩

/-- Where code cannot run, a chart has nothing. -/
theorem charted_dead (c : Listing) (exits : List Exit) (pc : ℕ) :
    Charted c exits pc none pc none :=
  ⟨∅, .empty c exits pc none, nofun⟩

theorem Listing.within_of_bound {h : ℕ} (hb : c.bound h) : c.Within h :=
  ⟨h, hb, Nat.le_refl _⟩

section Branches

variable {x : Exit} {h : ℕ} (hsize : (Flat.encode c.code).length < 2 ^ 32)
  (hexits : ExitsKnown c exits)

include hsize hexits

theorem charted_leave (hx : x ∈ exits) (hb : c.bound p.height) (ha : x.Admits (floor exits) p)
    (hc : Flat.Spells c.code pc (x.code c.scope .always pc p.height)) :
    Charted c exits pc (some p)
      (pc + (Flat.encode (x.code c.scope .always pc p.height)).length) none := by
  have hw := Listing.within_of_bound hb
  have hdead := charted_dead c exits
    (pc + (Flat.encode (x.code c.scope .always pc p.height)).length)
  obtain ⟨j, hj⟩ : ∃ j, x.code c.scope .always pc p.height = [j] := by
    rw [Exit.code]
    split <;> exact ⟨_, rfl⟩
  rw [hj, Flat.length_encode_singleton] at hdead ⊢
  rw [hj] at hc
  refine hdead.cons hc fun L _ hL => ?_
  have htaken := ha.taken hx hexits hsize hL
  rw [Exit.code] at hj
  cases ht : x.target with
  | some t =>
    rw [ht] at hj
    cases hj
    exact .branch ht hw htaken
  | none =>
    rw [ht] at hj
    cases hj
    exact .ret ht hw htaken

theorem charted_brIf (hx : x ∈ exits) (hb : c.bound p.height) (hh : p.height = h + 1)
    (ha : x.Admits (floor exits) ⟨h, p.selected⟩)
    (hc : Flat.Spells c.code pc (x.code c.scope .ifNonzero pc h))
    (hr : Charted c exits (pc + (Flat.encode (x.code c.scope .ifNonzero pc h)).length)
      (some ⟨h, p.selected⟩) pc' q) : Charted c exits pc (some p) pc' q := by
  have hw := Listing.within_of_bound hb
  rw [Exit.code] at hc hr
  cases ht : x.target with
  | some t =>
    rw [ht] at hc hr
    dsimp only at hc hr
    rw [Flat.length_encode_singleton] at hr
    refine hr.cons hc fun L hnext hL => ?_
    exact .branchIf ht hw hh (ha.taken hx hexits hsize hL) rfl (hnext _ rfl)
  | none =>
    -- a return that a jump leads over
    rw [ht] at hc hr
    change Flat.Spells c.code pc [.jumpUnless (UInt32.ofNat (pc + 14)),
      .ret (UInt32.ofNat x.arity) (UInt32.ofNat (x.dropped h) + c.scope.localCount)] at hc
    have hret : c.Within h := ⟨p.height, hb, by omega⟩
    have hend : pc + 14 ≤ (Flat.encode c.code).length := hc.end_le
    obtain ⟨A, hA, henter⟩ : Charted c exits (pc + 14) (some ⟨h, p.selected⟩) pc' q := hr
    have hchart : Charts c exits (insert (pc + 5, ⟨h, p.selected⟩) A) (pc + 5) pc' q := by
      refine hA.cons hc.tail (.ret ht hret ?_)
      exact ha.taken hx hexits hsize fun y hy t s ht hle => .inr ⟨y, hy, ht, hle⟩
    exact hchart.jumpUnless hc.head (Nat.lt_of_le_of_lt hend hsize) hh
      ((henter _ rfl).subset (Set.subset_insert _ _))
      (.inl ⟨_, Set.mem_insert _ _, Point.le_refl _⟩)

theorem charted_brTable {xs : List Exit} (hxs : ∀ y ∈ xs ++ [x], y ∈ exits)
    (hb : c.bound p.height) (hh : p.height = h + 1) (harity : ∀ y ∈ xs, y.arity = x.arity)
    (ha : ∀ y ∈ xs ++ [x], y.Admits (floor exits) ⟨h, p.selected⟩)
    (hc : Flat.Spells c.code pc [.brTable (UInt32.ofNat x.arity)
      (xs.map (·.entry c.scope h)) (x.entry c.scope h)]) :
    Charted c exits pc (some p) (pc + (Flat.Instr.brTable (UInt32.ofNat x.arity)
      (xs.map (·.entry c.scope h)) (x.entry c.scope h)).size) none := by
  refine (charted_dead c exits _).cons hc fun L _ hL => .brTable (Listing.within_of_bound hb) hh ?_ ?_
  · rw [List.forall_mem_append, List.forall_mem_singleton]
    exact ⟨harity, rfl⟩
  · exact fun y hy => (ha y hy).taken (hxs y hy) hexits hsize hL

end Branches

/-- A frame and the code after it.  The label of the frame is its end, or its start if it is a loop. -/
theorem exists_charts_frame {x : Exit} {after : Point} {p : Option Point}
    (hbody : Charted c (x :: exits) pc p pc₁ q₁) (hq : ∀ r ∈ q₁, after ≤ r)
    (hrest : Charted c exits pc₁ (some after) pc' q)
    (hx : x.target = some pc₁ ∧ after ≤ x.point ∨ x.target = some pc ∧ ∃ r ∈ p, r ≤ x.point) :
    ∃ A, Charts c exits A pc pc' q ∧ (∀ r ∈ p, Enters A pc' q pc r) ∧
      Enters A pc' q pc₁ after := by
  obtain ⟨A₁, hA₁, hstart⟩ := hbody
  obtain ⟨A₂, hA₂, hafter⟩ := hrest
  have hend : ∀ r ∈ q₁, Enters A₂ pc' q pc₁ r := fun r hr => (hafter after rfl).mono (hq r hr)
  have hstart' : ∀ r ∈ p, Enters (A₁ ∪ A₂) pc' q pc r := fun r hr =>
    (hstart r hr).trans Set.subset_union_left fun s hs => (hend s hs).subset Set.subset_union_right
  have hafter' : Enters (A₁ ∪ A₂) pc' q pc₁ after :=
    (hafter after rfl).subset Set.subset_union_right
  refine ⟨A₁ ∪ A₂, hA₁.frame hA₂ hend fun t ht => ?_, hstart', hafter'⟩
  rcases hx with ⟨hx, hle⟩ | ⟨hx, r, hr, hle⟩
  · cases hx.symm.trans ht
    exact hafter'.mono hle
  · cases hx.symm.trans ht
    exact (hstart' r hr).mono hle

/-- The two branches of an `if`. -/
theorem charted_ifElse {pc₂ pc₃ h : ℕ} {x : Exit} {after : Point} {q₂ : Option Point}
    (hh : p.height = h + 1) (hsize : (Flat.encode c.code).length < 2 ^ 32)
    (hpc₂ : pc₂ < (Flat.encode c.code).length) (hpc₃ : pc₃ < (Flat.encode c.code).length)
    (hc : Flat.Spells c.code pc [.jumpUnless (UInt32.ofNat pc₂)])
    (hx : x.target = some pc₃) (hafter : after ≤ x.point)
    (hbody : Charted c (x :: exits) (pc + 5) (some ⟨h, p.selected⟩) pc₁ q₁)
    (hjump : SkipsElse c.code after q₁ pc₁ pc₂ pc₃)
    (helse : Charted c (x :: exits) pc₂ (some ⟨h, p.selected⟩) pc₃ q₂)
    (hq : ∀ r ∈ q₂, after ≤ r) (hrest : Charted c exits pc₃ (some after) pc' q) :
    Charted c exits pc (some p) pc' q := by
  obtain ⟨B, hB, hstart, hend⟩ := exists_charts_frame helse hq hrest (.inl ⟨hx, hafter⟩)
  -- the jump over the second branch
  obtain ⟨B', hB', hsub, hskip⟩ : ∃ B', Charts c exits B' pc₁ pc' q ∧ B ⊆ B' ∧
      ∀ r ∈ q₁, Enters B' pc' q pc₁ r := by
    cases q₁ with
    | none =>
      rw [show pc₂ = pc₁ from hjump] at hB
      exact ⟨B, hB, subset_rfl, nofun⟩
    | some r =>
      obtain ⟨hle, hspell, rfl⟩ := hjump
      have hsub : B ⊆ insert (pc₁, r) B := Set.subset_insert _ _
      refine ⟨insert (pc₁, r) B, hB.cons hspell (.jump (by omega) ?_), hsub, ?_⟩
      · exact .inl ((hend.mono hle).subset hsub)
      · intro s hs
        cases hs
        exact .inl ⟨r, Set.mem_insert _ _, r.le_refl⟩
  obtain ⟨A, hA, hfirst⟩ := hbody
  have hright : B ⊆ A ∪ B' := fun y hy => .inr (hsub hy)
  have hchart : Charts c exits (A ∪ B') (pc + 5) pc' q := by
    refine hA.frame hB' hskip fun t ht => ?_
    cases hx.symm.trans ht
    exact (hend.mono hafter).subset hright
  refine hchart.jumpUnless hc (by omega) hh ((hstart _ rfl).subset hright) ?_
  exact (hfirst _ rfl).trans Set.subset_union_left fun r hr =>
    (hskip r hr).subset Set.subset_union_right

/-- **Laid out code has a chart.** -/
theorem Laid.charted {p : Option Point} {e : Expr} (h : Laid c exits pc p e pc' q)
    (hsize : (Flat.encode c.code).length < 2 ^ 32) (hexits : ExitsKnown c exits)
    (hend : q ≠ none → pc' < (Flat.encode c.code).length) : Charted c exits pc p pc' q := by
  induction h with
  | done exits pc p =>
    exact ⟨∅, .empty c exits pc p, fun r hr => .inr ⟨rfl, r, hr, r.le_refl⟩⟩
  | dead exits pc e => exact charted_dead c exits pc
  | nop ho hr ih => exact ih hexits hend
  | unreachable ho hc =>
    exact (charted_dead c _ _).cons hc fun L _ _ => .unreachable
  | plain ho hj he hb hh hc hs hr ih =>
    exact .plain ho hj he (by omega) hc hs (ih hexits hend)
  | leave ho hl hx hb ha hc =>
    exact charted_leave hsize hexits (List.mem_of_getElem? hx) hb ha hc
  | brIf ho hx hb hh ha hc hr ih =>
    exact charted_brIf hsize hexits (List.mem_of_getElem? hx) hb hh ha hc (ih hexits hend)
  | @brTable exits pc fallback h labels p o rest xs x ho hxs hx hb hh harity ha hc =>
    refine charted_brTable hsize hexits ?_ hb hh harity ha hc
    rw [List.forall_mem_append, List.forall_mem_singleton]
    refine ⟨?_, List.mem_of_getElem? hx⟩
    clear ho hc ha harity hend
    induction hxs with
    | nil => nofun
    | cons hy _ ih => exact List.forall_mem_cons.mpr ⟨List.mem_of_getElem? hy, ih⟩
  | block ht hh hf hbody hq hr ihb ihr =>
    have hpc := hr.lt nofun hend
    obtain ⟨A, hA, hstart, -⟩ := exists_charts_frame
      (ihb (hexits.cons rfl hpc) fun _ => hpc) hq (ihr hexits hend) (.inl ⟨rfl, Point.le_refl _⟩)
    exact ⟨A, hA, hstart⟩
  | @loop exits pc pc₁ pc' base p q q' after t body rest type ht hh hf hbody hq hr ihb ihr =>
    have hpc := hr.lt nofun hend
    have hfirst := hbody.lt nofun fun _ => hpc
    obtain ⟨A, hA, hstart, -⟩ := exists_charts_frame
      (ihb (hexits.cons rfl hfirst) fun _ => hpc) hq (ihr hexits hend)
      (.inr ⟨rfl, _, rfl, hh, Selection.le_refl _⟩)
    refine ⟨A, hA, fun r hr => ?_⟩
    cases hr
    exact (hstart _ rfl).mono ⟨rfl, Selection.unknown_le _⟩
  | ifThen ht hio hb hh hf hc hbody hq hskip hr ihb ihr =>
    have hpc := hr.lt nofun hend
    obtain ⟨A, hA, hstart, hafter⟩ := exists_charts_frame
      (ihb (hexits.cons rfl hpc) fun _ => hpc) hq (ihr hexits hend) (.inl ⟨rfl, Point.le_refl _⟩)
    exact hA.jumpUnless hc (by omega) hh (hafter.mono ⟨by rw [hio], hskip⟩) (hstart _ rfl)
  | @ifElse exits pc pc₁ pc₂ pc₃ pc' base p q q₁ q' after t body orElse rest type ht hb hh hf hc
      hbody hjump helse hq hr ihb ihe ihr =>
    have hpc₃ := hr.lt nofun hend
    have hpc₂ := helse.lt nofun fun _ => hpc₃
    have hexits' := hexits.cons (x := ⟨some pc₃, base, type.results.length, after⟩) rfl hpc₃
    refine charted_ifElse hh hsize hpc₂ hpc₃ hc rfl (Point.le_refl _) (ihb hexits' fun hne => ?_)
      hjump (ihe hexits' fun _ => hpc₃) hq (ihr hexits hend)
    obtain ⟨r, rfl⟩ := Option.ne_none_iff_exists'.mp hne
    exact hjump.2.1.lt

/-! ## Functions -/

/-- The chart has an offset, and knows no more than `p` there. -/
def Lands (A : Set (ℕ × Point)) (n : ℕ) (p : Point) : Prop :=
  ∃ r, (n, r) ∈ A ∧ r ≤ p

namespace Function

/-- The offset where the body starts.  Before it are the locals, if there are any. -/
def entry (f : Function) : ℕ :=
  if f.locals.isEmpty then 0 else 5

/-- A chart of all the code of a function. -/
structure HasChart (f : Function) (c : Listing) (A : Set (ℕ × Point)) : Prop where
  locals : f.locals.isEmpty = false → Flat.Spells c.code 0 [.locals (UInt32.ofNat f.locals.length)]
  start : Lands A f.entry ⟨0, .unknown⟩
  range : ∀ n p, (n, p) ∈ A → f.entry ≤ n ∧ n < (Flat.encode c.code).length
  unique : ∀ n p p', (n, p) ∈ A → (n, p') ∈ A → p = p'
  covers : ∀ n j, f.entry ≤ n → Flat.Spells c.code n [j] → ∃ p, (n, p) ∈ A
  site : ∀ n p, (n, p) ∈ A → ∃ j, Flat.Spells c.code n [j] ∧ Site c (Lands A) n p j

variable {f : Function} {space : IndexSpace} {code : Flat.Code} {bound : ℕ → Prop}

theorem lands_of_enters (h : Enters A pc' none n p) : Lands A n p := by
  rcases h with hA | ⟨-, r, hr, -⟩
  · exact hA
  · cases hr

/-- To branch to the outermost label is to return, so a chart of a whole function leads nowhere else. -/
theorem lands_of_arrives {arity : ℕ} {selected : Selection}
    (h : Arrives A [⟨none, 0, arity, selected⟩] pc' none n p) : Lands A n p := by
  rcases h with henters | ⟨x, hx, ht, -⟩
  · exact lands_of_enters henters
  · rw [List.mem_singleton] at hx
    rw [hx] at ht
    cases ht

/-- Where the body runs through to its end, the code of the function ends with a return. -/
theorem charted_end {e : Expr} {pc : ℕ} {q : Option Point}
    (h : f.IsLaid (f.listing space code bound) e pc q) :
    Charted (f.listing space code bound) [⟨none, 0, f.type.results.length, .unknown⟩] pc q
      (Flat.encode (f.listing space code bound).code).length none := by
  rw [h.length]
  cases q with
  | none => exact charted_dead _ _ _
  | some r =>
    obtain ⟨hheight, hbound⟩ := h.height r rfl
    refine (charted_dead _ _ (pc + 9)).cons (h.last r rfl) fun L _ _ => ?_
    have hdropped : (⟨none, 0, f.type.results.length, .unknown⟩ : Exit).dropped r.height = 0 := by
      rw [Exit.dropped, hheight]
      exact Nat.sub_self _
    have hsite := Site.ret (c := f.listing space code bound) (L := L) (n := pc) (p := r)
      (x := ⟨none, 0, f.type.results.length, .unknown⟩) rfl (Listing.within_of_bound hbound)
      ⟨by rw [hheight, Nat.zero_add], (by rintro _ ⟨⟩), fun _ => ⟨rfl, rfl⟩⟩
    rwa [hdropped] at hsite

/-- **The code of a function has a chart.** -/
theorem exists_hasChart (bound : ℕ → Prop) {e : Expr} (he : e.IsBody f.body.bytes)
    (hl : (f.subject space).lower f.start.frames f.start.low f.body.bytes = .ok code)
    (hbound : ∀ v ∈ f.trail space, v.before.frames.live = true → bound v.before.height)
    (hsize : code.bytes.length < 2 ^ 32) :
    ∃ A, f.HasChart (f.listing space code bound) A := by
  obtain ⟨pc, q, hlaid⟩ := exists_isLaid he hl hbound
  have hexits : ExitsKnown (f.listing space code bound)
      [⟨none, 0, f.type.results.length, .unknown⟩] := by
    refine ⟨?_, ?_⟩ <;> rw [List.forall_mem_singleton]
    · nofun
    · exact fun _ => ⟨rfl, rfl⟩
  have hend : q ≠ none → pc < (Flat.encode (f.listing space code bound).code).length := by
    intro hne
    obtain ⟨r, rfl⟩ := Option.ne_none_iff_exists'.mp hne
    exact (hlaid.last r rfl).lt
  obtain ⟨A, hA, hstart⟩ := (hlaid.body.charted hsize hexits hend).append (charted_end hlaid)
  refine ⟨A, hlaid.locals, lands_of_enters (hstart _ rfl), hA.range, hA.unique, ?_, ?_⟩
  · exact fun n j hn hj => hA.covers n j hn hj.lt hj
  · intro n p hp
    obtain ⟨j, hj, hs⟩ := hA.site n p hp
    exact ⟨j, hj, hs.mono fun _ _ => lands_of_arrives⟩

end Function

end FlatWasm
