import Mathlib
import FlatWasm.Reader

/-!
# What readers answer

Three views of a reader.  `answer` forgets why bytes are refused, and makes the reader a computation in `Option`.  `Reads`
runs it on bytes that it takes as a whole, whatever comes after them.  `Accepts` compares it with a grammar, a relation
between what is read and the bytes that it is written in: the reader takes exactly what the grammar names, and so it makes
no difference what comes after it, or whether anything does.

## Why a bound on what is left is no part of a grammar

A reader may refuse a count because it exceeds the bytes that are left.  This depends on what comes after, so by itself it
accepts no grammar.  Before a reader that takes at least as many bytes it does: where the bytes that are left do not
suffice for the bound, they do not suffice for the reader either.
-/

namespace FlatWasm

/-- A computation that goes on succeeds exactly if both its parts do. -/
theorem Except.bind_eq_ok_iff {ε α β : Type} {x : Except ε α} {f : α → Except ε β} {b : β} :
    x >>= f = .ok b ↔ ∃ a, x = .ok a ∧ f a = .ok b := by
  cases x with
  | error e =>
    constructor
    · intro h
      cases h
    · rintro ⟨a, h, -⟩
      cases h
  | ok a =>
    constructor
    · intro h
      exact ⟨a, rfl, h⟩
    · rintro ⟨a', h, h'⟩
      cases h
      exact h'

namespace Reader

variable {ε ε' α β : Type}

/-! ## Answers -/

/-- What a reader answers, without the reason if it does not. -/
def answer (r : Reader ε α) (bytes : List UInt8) : Option (α × List UInt8) :=
  (r bytes).toOption

@[simp] theorem answer_pure (a : α) (bytes : List UInt8) :
    answer (pure a : Reader ε α) bytes = some (a, bytes) :=
  rfl

@[simp] theorem answer_fail (e : ε) (bytes : List UInt8) :
    answer (fail e : Reader ε α) bytes = none :=
  rfl

@[simp] theorem answer_ofExcept (x : Except ε α) (bytes : List UInt8) :
    answer (ofExcept x) bytes = x.toOption.map fun a => (a, bytes) := by
  cases x <;> rfl

@[simp] theorem answer_remaining (bytes : List UInt8) :
    answer (remaining : Reader ε ℕ) bytes = some (bytes.length, bytes) :=
  rfl

@[simp] theorem answer_bind (r : Reader ε α) (f : α → Reader ε β) (bytes : List UInt8) :
    answer (r >>= f) bytes = (answer r bytes).bind fun p => answer (f p.1) p.2 := by
  show Except.toOption (r bytes >>= fun p => f p.1 p.2) = _
  cases h : r bytes <;> simp [answer, h] <;> rfl

theorem answer_ite (p : Prop) [Decidable p] (r r' : Reader ε α) (bytes : List UInt8) :
    answer (if p then r else r') bytes = if p then answer r bytes else answer r' bytes := by
  split <;> rfl

theorem answer_eq_some_iff {r : Reader ε α} {bytes : List UInt8} {p : α × List UInt8} :
    answer r bytes = some p ↔ r bytes = .ok p := by
  rw [answer]
  cases r bytes <;> simp [Except.toOption]

/-- Two readers in a row answer if both do. -/
theorem bind_eq_ok_iff {r : Reader ε α} {f : α → Reader ε β} {bytes rest : List UInt8} {b : β} :
    (r >>= f) bytes = .ok (b, rest) ↔ ∃ a mid, r bytes = .ok (a, mid) ∧ f a mid = .ok (b, rest) := by
  rw [← answer_eq_some_iff, answer_bind, Option.bind_eq_some_iff]
  constructor
  · rintro ⟨⟨a, mid⟩, hr, hf⟩
    exact ⟨a, mid, answer_eq_some_iff.mp hr, answer_eq_some_iff.mp hf⟩
  · rintro ⟨a, mid, hr, hf⟩
    exact ⟨(a, mid), answer_eq_some_iff.mpr hr, answer_eq_some_iff.mpr hf⟩

theorem pure_eq_ok_iff {a b : α} {bytes rest : List UInt8} :
    (pure a : Reader ε α) bytes = .ok (b, rest) ↔ a = b ∧ bytes = rest := by
  show Except.ok (a, bytes) = Except.ok (b, rest) ↔ _
  simp

theorem ofExcept_eq_ok_iff {x : Except ε α} {a : α} {bytes rest : List UInt8} :
    ofExcept x bytes = .ok (a, rest) ↔ x = .ok a ∧ bytes = rest := by
  cases x <;> simp [ofExcept, Except.map]

/-! ## Runs -/

/-- From bytes that start with `taken` a reader reads `a`, and leaves what comes after. -/
def Reads (r : Reader ε α) (taken : List UInt8) (a : α) : Prop :=
  ∀ rest, r (taken ++ rest) = .ok (a, rest)

theorem reads_pure (a : α) : Reads (pure a : Reader ε α) [] a :=
  fun _ => rfl

theorem Reads.bind {r : Reader ε α} {f : α → Reader ε β} {bs bs' : List UInt8} {a : α} {b : β}
    (h : Reads r bs a) (h' : Reads (f a) bs' b) : Reads (r >>= f) (bs ++ bs') b := by
  intro rest
  show (r (bs ++ bs' ++ rest) >>= fun p => f p.1 p.2) = _
  rw [List.append_assoc, h]
  exact h' rest

/-- The same where the first of two readers is itself put together from two. -/
theorem Reads.bind_bind {γ : Type} {r : Reader ε α} {f : α → Reader ε β} {g : β → Reader ε γ}
    {bs bs' : List UInt8} {b : β} {c : γ} (h : Reads (r >>= f) bs b) (h' : Reads (g b) bs' c) :
    Reads (r >>= fun a => f a >>= g) (bs ++ bs') c := by
  have hbind := h.bind h'
  rwa [bind_assoc] at hbind

theorem Reads.map {r : Reader ε α} {f : α → β} {bs : List UInt8} {a : α} (h : Reads r bs a) :
    Reads (do return f (← r)) bs (f a) := by
  have hbind := Reads.bind (f := fun a => pure (f a)) h (reads_pure (f a))
  rwa [List.append_nil] at hbind

theorem Reads.bind_map {γ : Type} {r : Reader ε α} {f : α → Reader ε β} {g : β → γ}
    {bs : List UInt8} {b : β} (h : Reads (r >>= f) bs b) :
    Reads (r >>= fun a => do return g (← f a)) bs (g b) := by
  have hmap := h.map (f := g)
  rwa [bind_assoc] at hmap

theorem Reads.replicate {r : Reader ε α} {encode : α → List UInt8}
    (h : ∀ a, Reads r (encode a) a) (as : List α) (first : ℕ) :
    Reads (Reader.replicate as.length (fun _ => r) first) (as.flatMap encode) as := by
  induction as generalizing first with
  | nil => exact reads_pure []
  | cons a as ih =>
    rw [List.flatMap_cons]
    exact (h a).bind (ih (first + 1)).map

/-- A reader that first looks whether there is enough. -/
theorem Reads.remaining {r : Reader ε α} {e : ε} {bs : List UInt8} {a : α} {n : ℕ}
    (hn : n ≤ bs.length) (h : Reads r bs a) :
    Reads (do
      let remaining ← Reader.remaining
      if remaining < n then Reader.fail e else r) bs a := by
  intro rest
  show (if (bs ++ rest).length < n then Reader.fail e else r : Reader ε α) (bs ++ rest) = _
  rw [List.length_append, if_neg (by omega)]
  exact h rest

theorem Reads.mapError {r : Reader ε α} {f : ε → ε'} {bs : List UInt8} {a : α} (h : Reads r bs a) :
    Reads (mapError f r) bs a := by
  intro rest
  rw [Reader.mapError, h rest]
  rfl

theorem mapError_eq_ok_iff {r : Reader ε α} {f : ε → ε'} {bytes : List UInt8}
    {p : α × List UInt8} : mapError f r bytes = .ok p ↔ r bytes = .ok p := by
  rw [mapError]
  cases r bytes <;> simp [Except.mapError]

/-! ## Grammars -/

/-- A reader takes what a grammar names, and it answers only there. -/
structure Accepts (r : Reader ε α) (G : α → List UInt8 → Prop) : Prop where
  reads : ∀ {a : α} {taken : List UInt8}, G a taken → Reads r taken a
  exists_taken : ∀ {bytes rest : List UInt8} {a : α}, r bytes = .ok (a, rest) →
    ∃ taken, bytes = taken ++ rest ∧ G a taken

/-- Items one after the other. -/
inductive Items (G : α → List UInt8 → Prop) : List α → List UInt8 → Prop where
  | nil : Items G [] []
  | cons {a : α} {as : List α} {taken taken' : List UInt8} (h : G a taken)
      (hs : Items G as taken') : Items G (a :: as) (taken ++ taken')

section

variable {r : Reader ε α} {G : α → List UInt8 → Prop}

/-- Where a reader of a grammar comes first, it has taken what the grammar names. -/
theorem Accepts.of_bind (h : r.Accepts G) {f : α → Reader ε β} {bytes rest : List UInt8} {b : β}
    (hb : (r >>= f) bytes = .ok (b, rest)) :
    ∃ a taken mid, bytes = taken ++ mid ∧ G a taken ∧ f a mid = .ok (b, rest) := by
  obtain ⟨a, mid, ha, hf⟩ := bind_eq_ok_iff.mp hb
  obtain ⟨taken, rfl, hG⟩ := h.exists_taken ha
  exact ⟨a, taken, mid, rfl, hG, hf⟩

theorem Accepts.of_bind_bind {γ : Type} {f : α → Reader ε β} {g : β → Reader ε γ}
    {H : β → List UInt8 → Prop} (h : (r >>= f).Accepts H) {bytes rest : List UInt8} {c : γ}
    (hc : (r >>= fun a => f a >>= g) bytes = .ok (c, rest)) :
    ∃ b taken mid, bytes = taken ++ mid ∧ H b taken ∧ g b mid = .ok (c, rest) := by
  rw [← bind_assoc] at hc
  exact h.of_bind hc

/-- **A reader of a grammar reads in isolation what it reads anywhere.** -/
theorem Accepts.eq_ok_nil_iff (h : r.Accepts G) {bytes : List UInt8} {a : α} :
    r bytes = .ok (a, []) ↔ G a bytes := by
  constructor
  · intro hr
    obtain ⟨taken, rfl, hG⟩ := h.exists_taken hr
    rwa [List.append_nil]
  · intro hG
    have hreads := h.reads hG []
    rwa [List.append_nil] at hreads

theorem Accepts.congr {H : α → List UInt8 → Prop} (h : r.Accepts G)
    (hiff : ∀ a taken, G a taken ↔ H a taken) : r.Accepts H :=
  (funext₂ fun a taken => propext (hiff a taken) : G = H) ▸ h

theorem Accepts.mapError (h : r.Accepts G) (f : ε → ε') : (mapError f r).Accepts G :=
  ⟨fun hG => (h.reads hG).mapError, fun hr => h.exists_taken (mapError_eq_ok_iff.mp hr)⟩

theorem Accepts.map (h : r.Accepts G) (f : α → β) :
    Accepts (do return f (← r)) fun b taken => ∃ a, b = f a ∧ G a taken := by
  refine ⟨?_, fun hr => ?_⟩
  · rintro b taken ⟨a, rfl, hG⟩
    exact (h.reads hG).map
  · obtain ⟨a, mid, ha, hp⟩ := bind_eq_ok_iff.mp hr
    obtain ⟨rfl, rfl⟩ := pure_eq_ok_iff.mp hp
    obtain ⟨taken, rfl, hG⟩ := h.exists_taken ha
    exact ⟨taken, rfl, a, rfl, hG⟩

/-- What is read together with its bytes. -/
theorem Accepts.withBytes (h : r.Accepts G) :
    (withBytes r).Accepts fun p taken => p.2 = taken ∧ G p.1 taken := by
  refine ⟨?_, ?_⟩
  · rintro ⟨a, bs⟩ taken ⟨rfl, hG⟩ rest
    rw [Reader.withBytes, h.reads hG rest]
    simp
  · rintro bytes rest ⟨a, bs⟩ hr
    rw [Reader.withBytes] at hr
    split at hr
    · next ha =>
      cases hr
      obtain ⟨taken, rfl, hG⟩ := h.exists_taken ha
      exact ⟨taken, rfl, by simp, hG⟩
    · cases hr

theorem Accepts.replicate {r : ℕ → Reader ε α} (h : ∀ i, (r i).Accepts G) (n first : ℕ) :
    (replicate n r first).Accepts fun as taken => as.length = n ∧ Items G as taken := by
  induction n generalizing first with
  | zero =>
    refine ⟨?_, fun hr => ?_⟩
    · rintro as taken ⟨hlen, hitems⟩
      cases hitems with
      | nil => exact reads_pure []
      | cons => cases hlen
    · obtain ⟨rfl, rfl⟩ := pure_eq_ok_iff.mp hr
      exact ⟨[], rfl, rfl, .nil⟩
  | succ n ih =>
    refine ⟨?_, fun hr => ?_⟩
    · rintro as taken ⟨hlen, hitems⟩
      cases hitems with
      | nil => cases hlen
      | cons ha hs =>
        exact ((h first).reads ha).bind ((ih (first + 1)).reads ⟨Nat.succ.inj hlen, hs⟩).map
    · obtain ⟨a, mid, ha, hr⟩ := bind_eq_ok_iff.mp hr
      obtain ⟨as, mid', hs, hp⟩ := bind_eq_ok_iff.mp hr
      obtain ⟨rfl, rfl⟩ := pure_eq_ok_iff.mp hp
      obtain ⟨taken, rfl, hG⟩ := (h first).exists_taken ha
      obtain ⟨taken', rfl, hlen, hitems⟩ := (ih (first + 1)).exists_taken hs
      exact ⟨taken ++ taken', by rw [List.append_assoc], congrArg Nat.succ hlen, .cons hG hitems⟩

/-- What is not read from no bytes is not written as none. -/
theorem Accepts.length_pos (h : r.Accepts G) (hnil : ∀ p, r [] ≠ .ok p) {a : α} {taken : List UInt8}
    (hG : G a taken) : 0 < taken.length := by
  refine List.length_pos_iff.mpr ?_
  rintro rfl
  exact hnil _ (h.reads hG [])

theorem Items.forall_mem {P : α → Prop} (hP : ∀ a taken, G a taken → P a) {as : List α}
    {taken : List UInt8} (h : Items G as taken) : ∀ a ∈ as, P a := by
  induction h with
  | nil => exact List.forall_mem_nil _
  | cons h _ ih => exact List.forall_mem_cons.mpr ⟨hP _ _ h, ih⟩

theorem items_map_iff {f : α → β} {bs : List β} {taken : List UInt8} :
    Items (fun b taken => ∃ a, b = f a ∧ G a taken) bs taken ↔
      ∃ as, bs = as.map f ∧ Items G as taken := by
  constructor
  · intro h
    induction h with
    | nil => exact ⟨[], rfl, .nil⟩
    | cons h _ ih =>
      obtain ⟨a, rfl, ha⟩ := h
      obtain ⟨as, rfl, has⟩ := ih
      exact ⟨a :: as, rfl, .cons ha has⟩
  · rintro ⟨as, rfl, h⟩
    induction h with
    | nil => exact .nil
    | cons h _ ih => exact .cons ⟨_, rfl, h⟩ ih

/-- Items that are never empty take as many bytes as there are items. -/
theorem Items.length_le (hpos : ∀ a taken, G a taken → 0 < taken.length) {as : List α}
    {taken : List UInt8} (h : Items G as taken) : as.length ≤ taken.length := by
  induction h with
  | nil => exact Nat.le_refl _
  | cons ha _ ih =>
    have hlen := hpos _ _ ha
    rw [List.length_cons, List.length_append]
    omega

end

end Reader

end FlatWasm
