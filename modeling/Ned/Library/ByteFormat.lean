import Ned.Library.Fallible

/-!
# Byte formats

Readers and writers of one format: what is written reads back, and what is read could have been
written in as many bytes. A value fits a format with some number of bytes of room after it.
-/

namespace Ned.Library

/-- A reader takes bytes off the front of its input, or fails. -/
abbrev ByteReader (ε α : Type) := StateT (List UInt8) (Except ε) α

structure ByteFormat {ε α : Type} (r : ByteReader ε α) (write : α → List UInt8)
    (Fits : α → Nat → Prop) : Prop where
  reads : ∀ {a rest}, Fits a rest.length → r.run (write a ++ rest) = .ok (a, rest)
  fits : ∀ {bytes a rest}, r.run bytes = .ok (a, rest) → Fits a rest.length
  length : ∀ {bytes a rest}, r.run bytes = .ok (a, rest) →
    bytes.length = (write a).length + rest.length

namespace ByteReader

variable {ε α β γ : Type}

theorem run_bind_eq_ok {r : ByteReader ε α} {f : α → ByteReader ε β} {bytes rest : List UInt8} {b : β} :
    (r >>= f).run bytes = .ok (b, rest) ↔
      ∃ a middle, r.run bytes = .ok (a, middle) ∧ (f a).run middle = .ok (b, rest) := by
  rw [StateT.run_bind, bind_eq_ok]
  constructor
  · rintro ⟨⟨a, middle⟩, ha, hb⟩
    exact ⟨a, middle, ha, hb⟩
  · rintro ⟨a, middle, ha, hb⟩
    exact ⟨(a, middle), ha, hb⟩

theorem run_pure_eq_ok {a b : α} {bytes rest : List UInt8} :
    (pure a : ByteReader ε α).run bytes = .ok (b, rest) ↔ a = b ∧ bytes = rest := by
  rw [StateT.run_pure]
  constructor
  · intro h
    cases h
    exact ⟨rfl, rfl⟩
  · rintro ⟨rfl, rfl⟩
    rfl

/-- A check of what has been read. -/
def require (x : Except ε α) : ByteReader ε α := fun bytes => x.map fun a => (a, bytes)

theorem run_require_eq_ok {x : Except ε α} {bytes rest : List UInt8} {a : α} :
    (require x).run bytes = .ok (a, rest) ↔ x = .ok a ∧ bytes = rest := by
  cases x with
  | error e =>
      constructor
      · intro h
        cases h
      · rintro ⟨h, -⟩
        cases h
  | ok b =>
      constructor
      · intro h
        cases h
        exact ⟨rfl, rfl⟩
      · rintro ⟨h, rfl⟩
        cases h
        rfl

/-- Reads one value after another. -/
def times (r : ByteReader ε α) : Nat → ByteReader ε (List α)
  | 0 => pure []
  | n + 1 => do
      let a ← r
      let as ← times r n
      pure (a :: as)

end ByteReader

namespace ByteFormat

open ByteReader

variable {ε α β γ : Type} {r : ByteReader ε α} {write write' : α → List UInt8}
  {Fits Fits' : α → Nat → Prop}

theorem congr (h : ByteFormat r write Fits) (hwrite : ∀ a, write' a = write a)
    (hfits : ∀ a room, Fits' a room ↔ Fits a room) : ByteFormat r write' Fits' := by
  obtain rfl : write' = write := funext hwrite
  obtain rfl : Fits' = Fits := funext₂ fun a room => propext (hfits a room)
  exact h

/-- A value that stands for what is read. -/
theorem map (h : ByteFormat r write Fits) (f : α → β) (back : β → α) {FitsImage : β → Nat → Prop}
    (hback : ∀ b room, FitsImage b room → f (back b) = b ∧ Fits (back b) room)
    (hfits : ∀ a room, Fits a room → FitsImage (f a) room)
    (hlength : ∀ a, (write (back (f a))).length = (write a).length) :
    ByteFormat (do let a ← r; pure (f a)) (fun b => write (back b)) FitsImage where
  reads {b rest} hb := by
    obtain ⟨hf, hfit⟩ := hback b _ hb
    exact run_bind_eq_ok.2 ⟨back b, rest, h.reads hfit, run_pure_eq_ok.2 ⟨hf, rfl⟩⟩
  fits {bytes b rest} hrun := by
    obtain ⟨a, middle, ha, hb⟩ := run_bind_eq_ok.1 hrun
    obtain ⟨rfl, rfl⟩ := run_pure_eq_ok.1 hb
    exact hfits a _ (h.fits ha)
  length {bytes b rest} hrun := by
    obtain ⟨a, middle, ha, hb⟩ := run_bind_eq_ok.1 hrun
    obtain ⟨rfl, rfl⟩ := run_pure_eq_ok.1 hb
    rw [hlength, h.length ha]

/-- Two values, one after the other, that stand for a third. -/
theorem both {s : ByteReader ε β} {writeNext : β → List UInt8} {FitsNext : β → Nat → Prop}
    (h : ByteFormat r write Fits) (hs : ByteFormat s writeNext FitsNext) (f : α → β → γ)
    (first : γ → α) (next : γ → β) {FitsImage : γ → Nat → Prop}
    (hback : ∀ c room, FitsImage c room → f (first c) (next c) = c ∧
      Fits (first c) ((writeNext (next c)).length + room) ∧ FitsNext (next c) room)
    (hfits : ∀ a b room, Fits a ((writeNext b).length + room) → FitsNext b room →
      FitsImage (f a b) room)
    (hlength : ∀ a b, (write (first (f a b))).length + (writeNext (next (f a b))).length =
      (write a).length + (writeNext b).length) :
    ByteFormat (do let a ← r; let b ← s; pure (f a b))
      (fun c => write (first c) ++ writeNext (next c)) FitsImage where
  reads {c rest} hc := by
    obtain ⟨hf, hfirst, hnext⟩ := hback c _ hc
    refine run_bind_eq_ok.2 ⟨first c, writeNext (next c) ++ rest, ?_, ?_⟩
    · rw [List.append_assoc]
      refine h.reads ?_
      rwa [List.length_append]
    · exact run_bind_eq_ok.2 ⟨next c, rest, hs.reads hnext, run_pure_eq_ok.2 ⟨hf, rfl⟩⟩
  fits {bytes c rest} hrun := by
    obtain ⟨a, middle, ha, hrun⟩ := run_bind_eq_ok.1 hrun
    obtain ⟨b, middle', hb, hrun⟩ := run_bind_eq_ok.1 hrun
    obtain ⟨rfl, rfl⟩ := run_pure_eq_ok.1 hrun
    refine hfits a b _ ?_ (hs.fits hb)
    rw [← hs.length hb]
    exact h.fits ha
  length {bytes c rest} hrun := by
    obtain ⟨a, middle, ha, hrun⟩ := run_bind_eq_ok.1 hrun
    obtain ⟨b, middle', hb, hrun⟩ := run_bind_eq_ok.1 hrun
    obtain ⟨rfl, rfl⟩ := run_pure_eq_ok.1 hrun
    rw [List.length_append, hlength, h.length ha, hs.length hb, Nat.add_assoc]

/-! ## Records

A record is read field by field. What is known of the record when a field is read grows by the value
of that field.
-/

theorem record {FitsFields : α → Nat → Prop} (h : ByteFormat r write fun a room => True ∧ FitsFields a room)
    (hfits : ∀ a room, Fits a room ↔ FitsFields a room) : ByteFormat r write Fits :=
  h.congr (fun _ => rfl) fun a room => (hfits a room).trans (iff_of_eq (true_and _)).symm

theorem field (h : ByteFormat r write Fits) (proj : γ → α) {k : α → ByteReader ε γ}
    {writeRest : γ → List UInt8} {Known : γ → Prop} {FitsRest : γ → Nat → Prop}
    (hk : ∀ a, ByteFormat (k a) writeRest fun c room => (Known c ∧ proj c = a) ∧ FitsRest c room) :
    ByteFormat (r >>= k) (fun c => write (proj c) ++ writeRest c) fun c room =>
      Known c ∧ Fits (proj c) ((writeRest c).length + room) ∧ FitsRest c room where
  reads {c rest} hfits := by
    obtain ⟨hknown, hfield, hrest⟩ := hfits
    refine run_bind_eq_ok.2 ⟨proj c, writeRest c ++ rest, ?_, (hk _).reads ⟨⟨hknown, rfl⟩, hrest⟩⟩
    rw [List.append_assoc]
    refine h.reads ?_
    rwa [List.length_append]
  fits {bytes c rest} hrun := by
    obtain ⟨a, middle, ha, hc⟩ := run_bind_eq_ok.1 hrun
    obtain ⟨⟨hknown, rfl⟩, hrest⟩ := (hk a).fits hc
    refine ⟨hknown, ?_, hrest⟩
    rw [← (hk _).length hc]
    exact h.fits ha
  length {bytes c rest} hrun := by
    obtain ⟨a, middle, ha, hc⟩ := run_bind_eq_ok.1 hrun
    obtain ⟨⟨-, rfl⟩, -⟩ := (hk a).fits hc
    rw [h.length ha, (hk _).length hc, List.length_append, Nat.add_assoc]

/-- A field that may have any value. -/
theorem anyField (h : ByteFormat r write fun _ _ => True) (proj : γ → α) {k : α → ByteReader ε γ}
    {writeRest : γ → List UInt8} {Known : γ → Prop} {FitsRest : γ → Nat → Prop}
    (hk : ∀ a, ByteFormat (k a) writeRest fun c room => (Known c ∧ proj c = a) ∧ FitsRest c room) :
    ByteFormat (r >>= k) (fun c => write (proj c) ++ writeRest c) fun c room =>
      Known c ∧ FitsRest c room :=
  (h.field proj hk).congr (fun _ => rfl) fun _ _ => by rw [true_and]

/-- What fits may be said with what is known. -/
theorem congrKnown {Known : α → Prop} (FitsOther : α → Nat → Prop)
    (hfits : ∀ a room, Known a → (Fits a room ↔ FitsOther a room))
    (h : ByteFormat r write fun a room => Known a ∧ FitsOther a room) :
    ByteFormat r write fun a room => Known a ∧ Fits a room :=
  h.congr (fun _ => rfl) fun a room => and_congr_right fun hknown => hfits a room hknown

theorem congrField {Known : α → Prop} {FitsField FitsRest : α → Nat → Prop}
    (FitsOther : α → Nat → Prop)
    (hfits : ∀ a room, Known a → (FitsField a room ↔ FitsOther a room))
    (h : ByteFormat r write fun a room => Known a ∧ FitsOther a room ∧ FitsRest a room) :
    ByteFormat r write fun a room => Known a ∧ FitsField a room ∧ FitsRest a room :=
  congrKnown (fun a room => FitsOther a room ∧ FitsRest a room)
    (fun a room hknown => and_congr_left fun _ => hfits a room hknown) h

/-- With the last field the whole record is known. -/
theorem last (h : ByteFormat r write Fits) (proj : γ → α) {f : α → γ} {Known : γ → Prop}
    (hf : ∀ a c, Known c ∧ proj c = a ↔ c = f a) :
    ByteFormat (do let a ← r; pure (f a)) (fun c => write (proj c)) fun c room =>
      Known c ∧ Fits (proj c) room where
  reads {c rest} hfits := by
    obtain ⟨hknown, hfield⟩ := hfits
    refine run_bind_eq_ok.2 ⟨proj c, rest, h.reads hfield, run_pure_eq_ok.2 ⟨?_, rfl⟩⟩
    exact ((hf _ c).1 ⟨hknown, rfl⟩).symm
  fits {bytes c rest} hrun := by
    obtain ⟨a, middle, ha, hc⟩ := run_bind_eq_ok.1 hrun
    obtain ⟨rfl, rfl⟩ := run_pure_eq_ok.1 hc
    obtain ⟨hknown, hproj⟩ := (hf a _).2 rfl
    rw [hproj]
    exact ⟨hknown, h.fits ha⟩
  length {bytes c rest} hrun := by
    obtain ⟨a, middle, ha, hc⟩ := run_bind_eq_ok.1 hrun
    obtain ⟨rfl, rfl⟩ := run_pure_eq_ok.1 hc
    rw [((hf a _).2 rfl).2]
    exact h.length ha

theorem anyLast (h : ByteFormat r write fun _ _ => True) (proj : γ → α) {f : α → γ}
    {Known : γ → Prop} (hf : ∀ a c, Known c ∧ proj c = a ↔ c = f a) :
    ByteFormat (do let a ← r; pure (f a)) (fun c => write (proj c)) fun c _ => Known c ∧ True :=
  h.last proj hf

/-- A value that is checked once it has been read, and stands for another one. -/
theorem check (h : ByteFormat r write Fits) {f : α → Except ε β} (back : β → α) {Good : β → Prop}
    (hok : ∀ a b, f a = .ok b ↔ Good b ∧ back b = a) :
    ByteFormat (do let a ← r; require (f a)) (fun b => write (back b))
      fun b room => Good b ∧ Fits (back b) room where
  reads {b rest} hfits := by
    refine run_bind_eq_ok.2 ⟨back b, rest, h.reads hfits.2, ?_⟩
    exact run_require_eq_ok.2 ⟨(hok _ b).2 ⟨hfits.1, rfl⟩, rfl⟩
  fits {bytes b rest} hrun := by
    obtain ⟨a, middle, ha, hb⟩ := run_bind_eq_ok.1 hrun
    obtain ⟨hchecked, rfl⟩ := run_require_eq_ok.1 hb
    obtain ⟨hgood, rfl⟩ := (hok a b).1 hchecked
    exact ⟨hgood, h.fits ha⟩
  length {bytes b rest} hrun := by
    obtain ⟨a, middle, ha, hb⟩ := run_bind_eq_ok.1 hrun
    obtain ⟨hchecked, rfl⟩ := run_require_eq_ok.1 hb
    obtain ⟨-, rfl⟩ := (hok a b).1 hchecked
    exact h.length ha

theorem checkIf (h : ByteFormat r write Fits) {Good : α → Prop} [DecidablePred Good] (e : α → ε) :
    ByteFormat (do let a ← r; require (if Good a then .ok a else .error (e a))) write
      fun a room => Good a ∧ Fits a room := by
  refine h.check id fun a b => ?_
  by_cases ha : Good a
  · rw [if_pos ha]
    constructor
    · intro hok
      cases hok
      exact ⟨ha, rfl⟩
    · rintro ⟨-, rfl⟩
      rfl
  · rw [if_neg ha]
    constructor
    · intro hok
      cases hok
    · rintro ⟨hb, rfl⟩
      exact absurd hb ha

/-! ## Lists -/

variable {Good : α → Prop}

theorem times (h : ByteFormat r write fun a _ => Good a) (n : Nat) :
    ByteFormat (r.times n) (fun as => as.flatMap write)
      fun as _ => as.length = n ∧ ∀ a ∈ as, Good a where
  reads {as rest} hfits := by
    obtain ⟨rfl, hgood⟩ := hfits
    induction as with
    | nil => rfl
    | cons a as ih =>
        obtain ⟨ha, has⟩ := List.forall_mem_cons.1 hgood
        rw [List.flatMap_cons, List.append_assoc]
        refine run_bind_eq_ok.2 ⟨a, as.flatMap write ++ rest, h.reads ha, ?_⟩
        exact run_bind_eq_ok.2 ⟨as, rest, ih has, rfl⟩
  fits {bytes as rest} hrun := by
    induction n generalizing bytes as with
    | zero =>
        obtain ⟨rfl, -⟩ := run_pure_eq_ok.1 hrun
        exact ⟨rfl, List.forall_mem_nil _⟩
    | succ n ih =>
        obtain ⟨a, middle, ha, hrun⟩ := run_bind_eq_ok.1 hrun
        obtain ⟨tail, middle', htail, hrun⟩ := run_bind_eq_ok.1 hrun
        obtain ⟨rfl, rfl⟩ := run_pure_eq_ok.1 hrun
        obtain ⟨hlength, hgood⟩ := ih htail
        exact ⟨congrArg (· + 1) hlength, List.forall_mem_cons.2 ⟨h.fits ha, hgood⟩⟩
  length {bytes as rest} hrun := by
    induction n generalizing bytes as with
    | zero =>
        obtain ⟨rfl, rfl⟩ := run_pure_eq_ok.1 hrun
        exact (Nat.zero_add _).symm
    | succ n ih =>
        obtain ⟨a, middle, ha, hrun⟩ := run_bind_eq_ok.1 hrun
        obtain ⟨tail, middle', htail, hrun⟩ := run_bind_eq_ok.1 hrun
        obtain ⟨rfl, rfl⟩ := run_pure_eq_ok.1 hrun
        rw [h.length ha, ih htail, List.flatMap_cons, List.length_append, Nat.add_assoc]

theorem length_le_flatMap {as : List α} (hpos : ∀ a ∈ as, 0 < (write a).length) :
    as.length ≤ (as.flatMap write).length := by
  induction as with
  | nil => exact Nat.le_refl 0
  | cons a as ih =>
      obtain ⟨ha, has⟩ := List.forall_mem_cons.1 hpos
      rw [List.flatMap_cons, List.length_append, List.length_cons, Nat.add_comm]
      exact Nat.add_le_add ha (ih has)

end ByteFormat

end Ned.Library
