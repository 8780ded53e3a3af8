import Ned.Editor.Grammar.CharacterSet
import Ned.Editor.Grammar.Lemmas.CharacterSet

/-!
# Character sets are exact and transitions partition them
-/

namespace Ned.Editor.Grammar

open Library

namespace CharacterSet

/-! ## The sets the operations reach -/

inductive Reachable : CharacterSet → Prop
  | empty : Reachable {}
  | fromChar {c : Nat} (h : c < kCodepointEnd) : Reachable (fromChar c)
  | fromRange {first last : Nat} (hfirst : first < kCodepointEnd) (hlast : last < kCodepointEnd) :
      Reachable (fromRange first last)
  | negate {set : CharacterSet} (h : Reachable set) : Reachable set.negate
  | addChar {set : CharacterSet} {c : Nat} (h : Reachable set) (hc : c < kCodepointEnd) :
      Reachable (set.addChar c)
  | addRange {set : CharacterSet} {first last : Nat} (h : Reachable set) (hle : first ≤ last)
      (hlast : last < kCodepointEnd) : Reachable (set.addRange first last)
  | add {set other : CharacterSet} (h : Reachable set) (hother : Reachable other) :
      Reachable (set.add other)
  | intersection {set other : CharacterSet} (h : Reachable set) (hother : Reachable other) :
      Reachable (set.removeIntersection other).1
  | left {set other : CharacterSet} (h : Reachable set) (hother : Reachable other) :
      Reachable (set.removeIntersection other).2.1
  | right {set other : CharacterSet} (h : Reachable set) (hother : Reachable other) :
      Reachable (set.removeIntersection other).2.2
  | difference {set other : CharacterSet} (h : Reachable set) (hother : Reachable other) :
      Reachable (set.difference other)

variable {set other : CharacterSet}

theorem Reachable.canonical (h : Reachable set) : set.Canonical := by
  induction h with
  | empty => exact ⟨.nil, stopsBy_nil _⟩
  | fromChar hc =>
      refine .of_mem (fromChar_separated _) fun c hmem => ?_
      rw [(mem_fromChar _).1 hmem]
      exact hc
  | fromRange hfirst hlast =>
      refine .of_mem (fromRange_separated _ _) fun c hmem => ?_
      exact Nat.lt_of_le_of_lt ((mem_fromRange _ _).1 hmem).2 (max_lt hfirst hlast)
  | negate _ ih =>
      exact .of_mem (negateFrom_separated ih.separated) fun c hmem => ((mem_negate_iff ih).1 hmem).1
  | addChar _ hc ih =>
      refine .of_mem (addChar_separated ih.separated _) fun c hmem => ?_
      rcases (mem_addChar ih.separated.ordered _).1 hmem with rfl | hmem
      · exact hc
      · exact ih.lt_of_mem hmem
  | addRange _ hle hlast ih =>
      refine .of_mem (addRange_separated ih.separated hle) fun c hmem => ?_
      rcases (mem_addRange ih.separated hle).1 hmem with hmem | hmem
      · exact Nat.lt_of_le_of_lt hmem.2 hlast
      · exact ih.lt_of_mem hmem
  | add _ _ ih ihother =>
      refine .of_mem (add_separated ih.separated ihother.separated) fun c hmem => ?_
      rcases (mem_add_iff ih.separated ihother.separated).1 hmem with hmem | hmem
      · exact ih.lt_of_mem hmem
      · exact ihother.lt_of_mem hmem
  | intersection _ _ ih ihother => exact (removeIntersection_removes ih ihother).canonical
  | left _ _ ih ihother => exact (removeIntersection_removes ih ihother).leftCanonical
  | right _ _ ih ihother => exact (removeIntersection_removes ih ihother).rightCanonical
  | difference _ _ ih ihother => exact (removeIntersection_removes ih ihother).leftCanonical

/-- The operations are those on sets of codepoints. -/
structure Exact (set other : CharacterSet) : Prop where
  negate : ∀ c, c ∈ set.negate ↔ c < kCodepointEnd ∧ c ∉ set
  addChar : ∀ n c, c ∈ set.addChar n ↔ c = n ∨ c ∈ set
  addRange : ∀ first last, first ≤ last →
    ∀ c, c ∈ set.addRange first last ↔ (first ≤ c ∧ c ≤ last) ∨ c ∈ set
  add : ∀ c, c ∈ set.add other ↔ c ∈ set ∨ c ∈ other
  doesIntersect : set.doesIntersect other = true ↔ ∃ c, c ∈ set ∧ c ∈ other
  removes : Removes set other (set.removeIntersection other)
  difference : ∀ c, c ∈ set.difference other ↔ c ∈ set ∧ c ∉ other
  contains : ∀ c, set.contains c = true ↔ c ∈ set
  containsRange : ∀ start stop, set.containsRange start stop = true ↔
    start ∈ set ∧ ∀ c, start ≤ c → c < stop → c ∈ set
  simplifyIgnoring : ∀ c, c ∉ other → (c ∈ set.simplifyIgnoring other ↔ c ∈ set)

theorem Canonical.exact (h : set.Canonical) (hother : other.Canonical) : Exact set other where
  negate _ := mem_negate_iff h
  addChar n _ := mem_addChar h.separated.ordered n
  addRange _ _ hle _ := mem_addRange h.separated hle
  add _ := mem_add_iff h.separated hother.separated
  doesIntersect := rangesMeet_iff h.separated hother.separated
  removes := removeIntersection_removes h hother
  difference := (removeIntersection_removes h hother).mem_left
  contains _ := contains_iff h.separated.ordered
  containsRange _ _ := containsRange_iff h.separated
  simplifyIgnoring := (simplifyIgnoring_simplified h.separated.ordered).covers

end CharacterSet

/-! ## Partitions -/

/-- What an advance state leads to. -/
structure NfaEdge where
  stateId : Nat
  isSep : Bool
  precedence : Int

/-- A transition stands for the edges on which a codepoint is read. -/
structure NfaTransition.Stands (t : NfaTransition) (reads : NfaEdge → Prop) : Prop where
  sorted : t.states.Pairwise (· < ·)
  states : ∀ s, s ∈ t.states ↔ ∃ e, reads e ∧ e.stateId = s
  isSeparator : t.isSeparator = true ↔ ∀ e, reads e → e.isSep = true
  precedence : ∃ e, reads e ∧ e.precedence = t.precedence
  precedence_max : ∀ e, reads e → e.precedence ≤ t.precedence

/-- One of the transitions reads a codepoint. -/
def Reads (result : List NfaTransition) (c : Nat) : Prop := ∃ t ∈ result, c ∈ t.characters

/-- Transitions on disjoint sets. -/
structure Grouped (reads : Nat → NfaEdge → Prop) (result : List NfaTransition) : Prop where
  canonical : ∀ t ∈ result, t.characters.Canonical
  nonempty : ∀ t ∈ result, t.characters.isEmpty = false
  disjoint : result.Pairwise fun a b => ∀ c, c ∈ a.characters → c ∉ b.characters
  stands : ∀ t ∈ result, ∀ c, c ∈ t.characters → t.Stands (reads c)

/-- Each codepoint that is read has its transition. -/
structure Partitions (reads : Nat → NfaEdge → Prop) (result : List NfaTransition) : Prop
    extends Grouped reads result where
  covered : ∀ c e, reads c e → Reads result c

/-! ## One more advance state -/

theorem mem_insertState {stateId s : Nat} {states : List Nat} :
    s ∈ insertState stateId states ↔ s = stateId ∨ s ∈ states := by
  induction states with
  | nil => simp [insertState]
  | cons t states ih =>
      unfold insertState
      split
      · simp only [List.mem_cons, ih]
        exact or_left_comm
      · split
        · rename_i heq
          simp [heq]
        · simp

theorem insertState_sorted {stateId : Nat} {states : List Nat} (h : states.Pairwise (· < ·)) :
    (insertState stateId states).Pairwise (· < ·) := by
  induction states with
  | nil => exact List.pairwise_singleton _ _
  | cons t states ih =>
      obtain ⟨hhead, htail⟩ := List.pairwise_cons.1 h
      unfold insertState
      split
      · rename_i hlt
        refine List.pairwise_cons.2 ⟨fun s hs => ?_, ih htail⟩
        rcases mem_insertState.1 hs with rfl | hs
        · exact hlt
        · exact hhead s hs
      · rename_i hge
        split
        · exact h
        · rename_i hne
          have hgt : stateId < t := Nat.lt_of_le_of_ne (Nat.le_of_not_lt hge) (Ne.symm hne)
          exact List.pairwise_cons.2 ⟨List.forall_mem_cons.2
            ⟨hgt, fun s hs => Nat.lt_trans hgt (hhead s hs)⟩, h⟩

namespace NfaTransition.Stands

variable {t : NfaTransition} {reads reads' : NfaEdge → Prop} {e : NfaEdge}
  {characters : CharacterSet}

theorem congr (h : t.Stands reads) (hreads : ∀ e, reads' e ↔ reads e) :
    ({ t with characters } : NfaTransition).Stands reads' := by
  have heq : reads' = reads := funext fun e => propext (hreads e)
  rw [heq]
  exact ⟨h.sorted, h.states, h.isSeparator, h.precedence, h.precedence_max⟩

theorem insert (h : t.Stands reads) (hreads : ∀ e', reads' e' ↔ reads e' ∨ e' = e) :
    ({ characters := characters
       isSeparator := t.isSeparator && e.isSep
       precedence := max t.precedence e.precedence
       states := insertState e.stateId t.states } : NfaTransition).Stands reads' where
  sorted := insertState_sorted h.sorted
  states s := by
    simp only [mem_insertState, h.states, hreads, or_and_right, exists_or, exists_eq_left]
    rw [or_comm, eq_comm]
  isSeparator := by
    simp only [Bool.and_eq_true, h.isSeparator, hreads, or_imp, forall_and, forall_eq]
  precedence := by
    rcases Int.le_total t.precedence e.precedence with hle | hle
    · exact ⟨e, (hreads e).2 (.inr rfl), (max_eq_right hle).symm⟩
    · obtain ⟨e', he', heq⟩ := h.precedence
      exact ⟨e', (hreads e').2 (.inl he'), heq.trans (max_eq_left hle).symm⟩
  precedence_max e' he' := by
    rcases (hreads e').1 he' with he' | rfl
    · exact le_trans (h.precedence_max e' he') (le_max_left _ _)
    · exact le_max_right _ _

theorem single (hreads : ∀ e', reads e' ↔ e' = e) :
    (⟨characters, e.isSep, e.precedence, [e.stateId]⟩ : NfaTransition).Stands reads where
  sorted := List.pairwise_singleton _ _
  states s := by
    simp only [List.mem_singleton, hreads, exists_eq_left]
    exact eq_comm
  isSeparator := by simp [hreads]
  precedence := ⟨e, (hreads e).2 rfl, rfl⟩
  precedence_max e' he' := by rw [(hreads e').1 he']

end NfaTransition.Stands

@[simp] theorem reads_nil (c : Nat) : ¬Reads [] c := by
  rintro ⟨t, ht, -⟩
  cases ht

@[simp] theorem reads_cons {t : NfaTransition} {result : List NfaTransition} {c : Nat} :
    Reads (t :: result) c ↔ c ∈ t.characters ∨ Reads result c := by
  simp [Reads]

theorem reads_append {left right : List NfaTransition} {c : Nat} :
    Reads (left ++ right) c ↔ Reads left c ∨ Reads right c := by
  simp [Reads, or_and_right, exists_or]

namespace Grouped

variable {reads reads' : Nat → NfaEdge → Prop} {result : List NfaTransition} {t : NfaTransition}

theorem nil : Grouped reads [] := ⟨by simp, by simp, .nil, by simp⟩

theorem cons_iff : Grouped reads (t :: result) ↔
    t.characters.Canonical ∧ t.characters.isEmpty = false ∧
      (∀ c, c ∈ t.characters → t.Stands (reads c)) ∧
      (∀ c, c ∈ t.characters → ¬Reads result c) ∧ Grouped reads result := by
  constructor
  · rintro ⟨hcanonical, hnonempty, hdisjoint, hstands⟩
    obtain ⟨hhead, htail⟩ := List.pairwise_cons.1 hdisjoint
    refine ⟨hcanonical t List.mem_cons_self, hnonempty t List.mem_cons_self,
      hstands t List.mem_cons_self, ?_, ?_⟩
    · rintro c hc ⟨a, ha, hca⟩
      exact hhead a ha c hc hca
    · exact ⟨fun a ha => hcanonical a (List.mem_cons_of_mem _ ha),
        fun a ha => hnonempty a (List.mem_cons_of_mem _ ha), htail,
        fun a ha => hstands a (List.mem_cons_of_mem _ ha)⟩
  · rintro ⟨hcanonical, hnonempty, hstands, hapart, h⟩
    exact ⟨List.forall_mem_cons.2 ⟨hcanonical, h.canonical⟩,
      List.forall_mem_cons.2 ⟨hnonempty, h.nonempty⟩,
      .cons (fun a ha c hc hca => hapart c hc ⟨a, ha, hca⟩) h.disjoint,
      List.forall_mem_cons.2 ⟨hstands, h.stands⟩⟩

theorem append_iff {left right : List NfaTransition} : Grouped reads (left ++ right) ↔
    Grouped reads left ∧ Grouped reads right ∧ ∀ c, Reads left c → ¬Reads right c := by
  induction left with
  | nil => simp [nil]
  | cons t left ih =>
      simp only [List.cons_append, cons_iff, ih, reads_append, reads_cons, not_or, or_imp, forall_and]
      tauto

theorem perm {other : List NfaTransition} (h : Grouped reads result) (hperm : result.Perm other) :
    Grouped reads other where
  canonical t ht := h.canonical t (hperm.mem_iff.2 ht)
  nonempty t ht := h.nonempty t (hperm.mem_iff.2 ht)
  disjoint := by
    refine (hperm.pairwise_iff ?_).1 h.disjoint
    exact fun hab c hb ha => hab c ha hb
  stands t ht := h.stands t (hperm.mem_iff.2 ht)

end Grouped

namespace NfaCursor

variable {reads reads' : Nat → NfaEdge → Prop} {result : List NfaTransition}
  {chars : CharacterSet} {e : NfaEdge}

/-- An advance state is added to the codepoints of its set. In the induction the set has lost what
the transitions so far have read, so that only what it shares with the rest is said. -/
theorem addAdvance_grouped (h : Grouped reads result) (hchars : chars.Canonical)
    (hreads : ∀ c, c ∈ chars ∨ Reads result c →
      ∀ e', reads' c e' ↔ reads c e' ∨ c ∈ chars ∧ e' = e)
    (hnew : ∀ c, c ∈ chars → ¬Reads result c → ∀ e', ¬reads c e') :
    Grouped reads' (addAdvance e.stateId e.isSep e.precedence chars result) ∧
      ∀ c, Reads (addAdvance e.stateId e.isSep e.precedence chars result) c ↔
        c ∈ chars ∨ Reads result c := by
  induction result generalizing chars with
  | nil =>
      cases hempty : chars.isEmpty with
      | true =>
          simp only [addAdvance, hempty, if_true]
          exact ⟨.nil, fun c => by simp [CharacterSet.not_mem_of_isEmpty hempty]⟩
      | false =>
          simp only [addAdvance, hempty, Bool.false_eq_true, if_false]
          refine ⟨Grouped.cons_iff.2 ⟨hchars, hempty, fun c hc => ?_, by simp, .nil⟩,
            fun c => by simp⟩
          refine .single fun e' => ?_
          rw [hreads c (.inl hc) e']
          simp [hnew c hc (reads_nil c) e', hc]
  | cons t result ih =>
      obtain ⟨hcanonical, hnonempty, hstands, hapart, htail⟩ := Grouped.cons_iff.1 h
      unfold addAdvance
      cases hempty : chars.isEmpty with
      | true =>
          have hnone : ∀ c, c ∉ chars := fun c => CharacterSet.not_mem_of_isEmpty hempty
          simp only [if_true]
          refine ⟨?_, fun c => by simp [hnone]⟩
          refine ⟨h.canonical, h.nonempty, h.disjoint, fun a ha c hc => ?_⟩
          refine (h.stands a ha c hc).congr fun e' => ?_
          rw [hreads c (.inr ⟨a, ha, hc⟩) e']
          simp [hnone]
      | false =>
          simp only [Bool.false_eq_true, if_false]
          have hparts := CharacterSet.removeIntersection_removes hcanonical hchars
          generalize t.characters.removeIntersection chars = parts at hparts
          obtain ⟨common, rest, chars'⟩ := parts
          obtain ⟨hcommon, hrest, hchars', hmemcommon, hmemrest, hmemchars⟩ := hparts
          simp only at hcommon hrest hchars' hmemcommon hmemrest hmemchars ⊢
          -- what is left of the set agrees with it outside the first transition
          obtain ⟨hgrouped, hcovers⟩ := ih htail hchars'
            (by
              intro c hc e'
              have hout : c ∉ t.characters := by
                rcases hc with hc | hc
                · exact ((hmemchars c).1 hc).2
                · exact fun hct => hapart c hct hc
              rw [hreads c, hmemchars]
              · simp [hout]
              · exact hc.imp (fun hc => ((hmemchars c).1 hc).1) fun hc => reads_cons.2 (.inr hc))
            (by
              intro c hc hout
              obtain ⟨hin, hnot⟩ := (hmemchars c).1 hc
              exact hnew c hin fun hread => (reads_cons.1 hread).elim hnot hout)
          have hbelow : ∀ c, c ∈ t.characters →
              ¬Reads (addAdvance e.stateId e.isSep e.precedence chars' result) c := by
            intro c hct hread
            rcases (hcovers c).1 hread with hc | hc
            · exact ((hmemchars c).1 hc).2 hct
            · exact hapart c hct hc
          have hstandsrest : ∀ c, c ∈ rest →
              ({ t with characters := rest } : NfaTransition).Stands (reads' c) := by
            intro c hc
            obtain ⟨hct, hnot⟩ := (hmemrest c).1 hc
            refine (hstands c hct).congr fun e' => ?_
            rw [hreads c (.inr (reads_cons.2 (.inl hct))) e']
            simp [hnot]
          have hstandscommon : ∀ c, c ∈ common →
              ({ characters := common
                 isSeparator := t.isSeparator && e.isSep
                 precedence := max t.precedence e.precedence
                 states := insertState e.stateId t.states } : NfaTransition).Stands
                (reads' c) := by
            intro c hc
            obtain ⟨hct, hin⟩ := (hmemcommon c).1 hc
            refine (hstands c hct).insert fun e' => ?_
            rw [hreads c (.inl hin) e']
            simp [hin]
          have hboth : ∀ c, (c ∈ common ∨ c ∈ rest) ∨
              Reads (addAdvance e.stateId e.isSep e.precedence chars' result) c ↔
              c ∈ chars ∨ Reads (t :: result) c := by
            intro c
            rw [hcovers, hmemcommon, hmemrest, hmemchars, reads_cons]
            by_cases hct : c ∈ t.characters <;> by_cases hin : c ∈ chars <;> simp [hct, hin]
          have hrestbelow : ∀ c, c ∈ rest →
              ¬Reads (addAdvance e.stateId e.isSep e.precedence chars' result) c := fun c hc =>
            hbelow c ((hmemrest c).1 hc).1
          have hcommonbelow : ∀ c, c ∈ common →
              ¬Reads (addAdvance e.stateId e.isSep e.precedence chars' result) c := fun c hc =>
            hbelow c ((hmemcommon c).1 hc).1
          cases hnocommon : common.isEmpty with
          | true =>
              have hnone : ∀ c, c ∉ common := fun c => CharacterSet.not_mem_of_isEmpty hnocommon
              obtain ⟨c, hc⟩ :=
                CharacterSet.exists_mem_of_isEmpty hcanonical.separated.ordered hnonempty
              have hcrest : c ∈ rest :=
                (hmemrest c).2 ⟨hc, fun hin => hnone c ((hmemcommon c).2 ⟨hc, hin⟩)⟩
              simp only [if_true]
              refine ⟨Grouped.cons_iff.2 ⟨hrest, CharacterSet.isEmpty_of_mem hcrest, hstandsrest,
                hrestbelow, hgrouped⟩, fun c => ?_⟩
              rw [reads_cons, ← hboth c]
              simp [hnone]
          | false =>
              simp only [Bool.false_eq_true, if_false]
              cases hnorest : rest.isEmpty with
              | true =>
                  have hnone : ∀ c, c ∉ rest := fun c => CharacterSet.not_mem_of_isEmpty hnorest
                  simp only [if_true]
                  refine ⟨Grouped.cons_iff.2 ⟨hcommon, hnocommon, hstandscommon, hcommonbelow,
                    hgrouped⟩, fun c => ?_⟩
                  rw [reads_cons, ← hboth c]
                  simp [hnone]
              | false =>
                  simp only [Bool.false_eq_true, if_false]
                  have hkept : Grouped reads' ({ t with characters := rest } ::
                      addAdvance e.stateId e.isSep e.precedence chars' result) :=
                    Grouped.cons_iff.2 ⟨hrest, hnorest, hstandsrest, hrestbelow, hgrouped⟩
                  refine ⟨Grouped.cons_iff.2 ⟨hcommon, hnocommon, hstandscommon, fun c hc hread => ?_,
                    hkept⟩, fun c => ?_⟩
                  · rcases reads_cons.1 hread with hcrest | hout
                    · exact ((hmemrest c).1 hcrest).2 ((hmemcommon c).1 hc).2
                    · exact hcommonbelow c hc hout
                  · rw [reads_cons, reads_cons, ← hboth c, or_assoc]

theorem addAdvance_partitions (h : Partitions reads result) (hchars : chars.Canonical) :
    Partitions (fun c e' => reads c e' ∨ c ∈ chars ∧ e' = e)
      (addAdvance e.stateId e.isSep e.precedence chars result) := by
  have hreads : ∀ c, c ∈ chars ∨ Reads result c → ∀ e',
      (reads c e' ∨ c ∈ chars ∧ e' = e) ↔ reads c e' ∨ c ∈ chars ∧ e' = e :=
    fun _ _ _ => Iff.rfl
  obtain ⟨hgrouped, hcovers⟩ := addAdvance_grouped h.toGrouped hchars hreads
    fun c _ hout e' hread => hout (h.covered c e' hread)
  refine ⟨hgrouped, fun c e' hread => (hcovers c).2 ?_⟩
  rcases hread with hread | ⟨hc, -⟩
  · exact .inr (h.covered c e' hread)
  · exact .inl hc

/-! ## Equal transitions -/

theorem mergeInto_grouped {t : NfaTransition} (h : Grouped reads (t :: result)) :
    Grouped reads (mergeInto t result) ∧
      ∀ c, Reads (mergeInto t result) c ↔ Reads (t :: result) c := by
  induction result with
  | nil => exact ⟨h, fun c => Iff.rfl⟩
  | cons kept result ih =>
      obtain ⟨ht, htempty, htstands, htapart, hkept⟩ := Grouped.cons_iff.1 h
      obtain ⟨hcanonical, hnonempty, hstands, hapart, htail⟩ := Grouped.cons_iff.1 hkept
      have hwithout : Grouped reads (t :: result) :=
        Grouped.cons_iff.2 ⟨ht, htempty, htstands,
          fun c hc hread => htapart c hc (reads_cons.2 (.inr hread)), htail⟩
      unfold mergeInto
      split
      · rename_i hsame
        simp only [sameTarget, Bool.and_eq_true, beq_iff_eq] at hsame
        obtain ⟨⟨hstates, hsep⟩, hprecedence⟩ := hsame
        have hmem : ∀ c, c ∈ kept.characters.add t.characters ↔
            c ∈ kept.characters ∨ c ∈ t.characters := fun c =>
          CharacterSet.mem_add_iff hcanonical.separated ht.separated
        have hseparated := CharacterSet.add_separated hcanonical.separated ht.separated
        have hadded : (kept.characters.add t.characters).Canonical :=
          .of_mem hseparated fun c hc =>
            ((hmem c).1 hc).elim hcanonical.lt_of_mem ht.lt_of_mem
        obtain ⟨c₀, hc₀⟩ :=
          CharacterSet.exists_mem_of_isEmpty hcanonical.separated.ordered hnonempty
        have hfilled : (kept.characters.add t.characters).isEmpty = false :=
          CharacterSet.isEmpty_of_mem ((hmem c₀).2 (.inl hc₀))
        refine ⟨Grouped.cons_iff.2 ⟨hadded, hfilled, fun c hc => ?_, fun c hc => ?_, htail⟩,
          fun c => ?_⟩
        · rcases (hmem c).1 hc with hc | hc
          · exact (hstands c hc).congr fun e' => Iff.rfl
          · -- the other transition has the same target
            have hother := htstands c hc
            exact
              { sorted := hstates ▸ hother.sorted
                states := hstates ▸ hother.states
                isSeparator := hsep ▸ hother.isSeparator
                precedence := hprecedence ▸ hother.precedence
                precedence_max := hprecedence ▸ hother.precedence_max }
        · rcases (hmem c).1 hc with hc | hc
          · exact hapart c hc
          · exact fun hread => htapart c hc (reads_cons.2 (.inr hread))
        · rw [reads_cons, reads_cons, reads_cons, hmem]
          exact or_assoc.trans or_left_comm
      · obtain ⟨hgrouped, hcovers⟩ := ih hwithout
        refine ⟨Grouped.cons_iff.2 ⟨hcanonical, hnonempty, hstands, fun c hc hread => ?_, hgrouped⟩,
          fun c => ?_⟩
        · rcases reads_cons.1 ((hcovers c).1 hread) with hct | hout
          · exact htapart c hct (reads_cons.2 (.inl hc))
          · exact hapart c hc hout
        · rw [reads_cons, hcovers, reads_cons, reads_cons, reads_cons]
          exact or_left_comm

theorem mergeEqual_grouped (h : Grouped reads result) :
    Grouped reads (mergeEqual result) ∧ ∀ c, Reads (mergeEqual result) c ↔ Reads result c := by
  have hfold : ∀ merged : List NfaTransition, Grouped reads (merged ++ result) →
      Grouped reads (result.foldl (fun merged t => mergeInto t merged) merged) ∧
        ∀ c, Reads (result.foldl (fun merged t => mergeInto t merged) merged) c ↔
          Reads (merged ++ result) c := by
    clear h
    induction result with
    | nil =>
        intro merged h
        rw [List.append_nil] at h ⊢
        exact ⟨h, fun c => Iff.rfl⟩
    | cons t result ih =>
        intro merged h
        obtain ⟨hfront, hback, hapart⟩ :=
          Grouped.append_iff.1 (h.perm List.perm_middle : Grouped reads ((t :: merged) ++ result))
        obtain ⟨hmerged, hcovers⟩ := mergeInto_grouped hfront
        obtain ⟨hgrouped, hreads⟩ := ih (mergeInto t merged) (Grouped.append_iff.2
          ⟨hmerged, hback, fun c hc => hapart c ((hcovers c).1 hc)⟩)
        refine ⟨hgrouped, fun c => (hreads c).trans ?_⟩
        rw [reads_append, hcovers, reads_append, reads_cons, reads_cons]
        exact or_assoc.trans or_left_comm
  exact hfold [] h

/-! ## Runs over the states of a cursor -/

/-- One of the states reads a codepoint on an edge. -/
def StatesRead (nfa : Nfa) (stateIds : List Nat) (c : Nat) (e : NfaEdge) : Prop :=
  ∃ id ∈ stateIds, ∃ chars : CharacterSet,
    nfa.states[id]? = some (.advance chars e.stateId e.isSep e.precedence) ∧ c ∈ chars

/-- The sets of the states come from the operations on character sets. -/
def Built (nfa : Nfa) (stateIds : List Nat) : Prop :=
  ∀ id ∈ stateIds, ∀ chars stateId isSep precedence,
    nfa.states[id]? = some (.advance chars stateId isSep precedence) → chars.Reachable

theorem addState_partitions {nfa : Nfa} {id : Nat} (h : Partitions reads result)
    (hid : id < nfa.states.length) (hbuilt : Built nfa [id]) :
    ∃ result', addState nfa result id = some result' ∧
      Partitions (fun c e => reads c e ∨ StatesRead nfa [id] c e) result' := by
  have hread : nfa.states[id]? = some nfa.states[id] := List.getElem?_eq_getElem hid
  generalize nfa.states[id] = state at hread
  unfold addState
  rw [hread]
  refine ⟨_, rfl, ?_⟩
  cases state with
  | advance chars stateId isSep precedence =>
      have hchars := (hbuilt id (List.mem_singleton_self id) _ _ _ _ hread).canonical
      have hadded := addAdvance_partitions (e := ⟨stateId, isSep, precedence⟩) h hchars
      have heq : (fun c e => reads c e ∨ StatesRead nfa [id] c e) =
          fun c e => reads c e ∨ c ∈ chars ∧ e = ⟨stateId, isSep, precedence⟩ := by
        funext c e
        obtain ⟨target, sep, prec⟩ := e
        simp only [StatesRead, List.mem_singleton, exists_eq_left, hread, Option.some.injEq,
          NfaState.advance.injEq, NfaEdge.mk.injEq, eq_iff_iff]
        refine or_congr_right ⟨?_, ?_⟩
        · rintro ⟨chars', ⟨rfl, rfl, rfl, rfl⟩, hc⟩
          exact ⟨hc, rfl, rfl, rfl⟩
        · rintro ⟨hc, rfl, rfl, rfl⟩
          exact ⟨chars, ⟨rfl, rfl, rfl, rfl⟩, hc⟩
      rw [heq]
      exact hadded
  | split left right =>
      have heq : (fun c e => reads c e ∨ StatesRead nfa [id] c e) = reads := by
        funext c e
        simp [StatesRead, hread]
      rw [heq]
      exact h
  | accept variableIndex precedence =>
      have heq : (fun c e => reads c e ∨ StatesRead nfa [id] c e) = reads := by
        funext c e
        simp [StatesRead, hread]
      rw [heq]
      exact h

theorem foldlM_partitions {nfa : Nfa} {ids : List Nat} (h : Partitions reads result)
    (hids : ∀ id ∈ ids, id < nfa.states.length) (hbuilt : Built nfa ids) :
    ∃ result', ids.foldlM (addState nfa) result = some result' ∧
      Partitions (fun c e => reads c e ∨ StatesRead nfa ids c e) result' := by
  induction ids generalizing reads result with
  | nil =>
      refine ⟨result, rfl, ?_⟩
      simpa [StatesRead] using h
  | cons id ids ih =>
      obtain ⟨result₁, hstep, h₁⟩ := addState_partitions h (hids id List.mem_cons_self)
        fun id' hid' => hbuilt id' (List.mem_singleton.1 hid' ▸ List.mem_cons_self)
      obtain ⟨result₂, hrest, h₂⟩ := ih h₁ (fun id' hid' => hids id' (List.mem_cons_of_mem _ hid'))
        fun id' hid' => hbuilt id' (List.mem_cons_of_mem _ hid')
      refine ⟨result₂, ?_, ?_⟩
      · rw [List.foldlM_cons, hstep]
        exact hrest
      · have heq : (fun c e => reads c e ∨ StatesRead nfa (id :: ids) c e) =
            fun c e => (reads c e ∨ StatesRead nfa [id] c e) ∨ StatesRead nfa ids c e := by
          funext c e
          simp [StatesRead, or_assoc]
        rw [heq]
        exact h₂

/-- The sets that the operations reach are canonical and the operations are those on sets of
codepoints, and the transitions of a cursor group its edges by the codepoints on which they are
read. -/
theorem transitions_partition (cursor : NfaCursor)
    (hids : ∀ id ∈ cursor.stateIds, id < cursor.nfa.states.length)
    (hbuilt : Built cursor.nfa cursor.stateIds) :
    (∀ set : CharacterSet, set.Reachable → set.Canonical ∧
      ∀ other : CharacterSet, other.Reachable → CharacterSet.Exact set other) ∧
    ∃ result, cursor.transitions = some result ∧
      Partitions (StatesRead cursor.nfa cursor.stateIds) result := by
  refine ⟨fun set hset => ⟨hset.canonical, fun other hother => ?_⟩, ?_⟩
  · exact hset.canonical.exact hother.canonical
  · have hnone : Partitions (fun _ _ => False) [] := ⟨.nil, fun c e hread => hread.elim⟩
    obtain ⟨result, hfold, hresult⟩ := foldlM_partitions hnone hids hbuilt
    simp only [false_or] at hresult
    obtain ⟨hmerged, hcovers⟩ := mergeEqual_grouped hresult.toGrouped
    have hperm := List.perm_insertionSort
      (fun a b : NfaTransition => a.characters.compare b.characters ≠ .gt) (mergeEqual result)
    refine ⟨_, by rw [transitions, hfold]; rfl, hmerged.perm hperm.symm, fun c e hread => ?_⟩
    obtain ⟨t, ht, hc⟩ := (hcovers c).2 (hresult.covered c e hread)
    exact ⟨t, hperm.mem_iff.2 ht, hc⟩

/-- Two states on the overlapping sets `a` to `f` and `d` to `i`. -/
def overlapping : NfaCursor where
  nfa := ⟨[.advance (.fromRange 97 102) 5 false 0, .advance (.fromRange 100 105) 3 true 2,
    .accept 0 0]⟩
  stateIds := [0, 1, 2]

theorem statesRead_overlapping (e : NfaEdge) :
    StatesRead overlapping.nfa overlapping.stateIds 101 e ↔
      e = ⟨5, false, 0⟩ ∨ e = ⟨3, true, 2⟩ := by
  obtain ⟨target, sep, prec⟩ := e
  simp only [StatesRead, overlapping, List.mem_cons, List.not_mem_nil, or_false, NfaEdge.mk.injEq]
  constructor
  · rintro ⟨id, rfl | rfl | rfl, chars, hstate, -⟩
    · cases hstate
      exact .inl ⟨rfl, rfl, rfl⟩
    · cases hstate
      exact .inr ⟨rfl, rfl, rfl⟩
    · cases hstate
  · rintro (⟨rfl, rfl, rfl⟩ | ⟨rfl, rfl, rfl⟩)
    · exact ⟨0, .inl rfl, _, rfl, (CharacterSet.mem_fromRange 97 102).2 (by decide)⟩
    · exact ⟨1, .inr (.inl rfl), _, rfl, (CharacterSet.mem_fromRange 100 105).2 (by decide)⟩

/-- The transition on `e` leads to both. -/
theorem transitions_partition_overlapping :
    ∃ result, overlapping.transitions = some result ∧
      ∃ t ∈ result, 101 ∈ t.characters ∧ ∀ s, s ∈ t.states ↔ s = 5 ∨ s = 3 := by
  have hbuilt : Built overlapping.nfa overlapping.stateIds := by
    intro id hid chars stateId isSep precedence hstate
    simp only [overlapping, List.mem_cons, List.not_mem_nil, or_false] at hid hstate
    rcases hid with rfl | rfl | rfl
    · cases hstate
      exact .fromRange (by decide) (by decide)
    · cases hstate
      exact .fromRange (by decide) (by decide)
    · cases hstate
  obtain ⟨-, result, htransitions, hresult⟩ :=
    transitions_partition overlapping (by decide) hbuilt
  obtain ⟨t, ht, hc⟩ := hresult.covered 101 _ ((statesRead_overlapping _).2 (.inl rfl))
  refine ⟨result, htransitions, t, ht, hc, fun s => ?_⟩
  rw [(hresult.stands t ht 101 hc).states]
  simp [statesRead_overlapping, eq_comm]

end NfaCursor

end Ned.Editor.Grammar
