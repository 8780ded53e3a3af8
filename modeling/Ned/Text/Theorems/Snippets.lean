import Ned.Library.Runs
import Ned.Text.Positions
import Mathlib.Data.List.Nodup
import Mathlib.Data.List.Perm.Subperm
import Mathlib.Logic.Relation

/-!
# Snippet fields

When the nesting of snippet fields survives an edit. A deletion always keeps it. An insertion loses it
in two places: an empty field at the end of the field it is nested in is pushed out of it, and an
empty field in front of one that grows is pushed into it.
-/

namespace Ned.Text.SnippetRange

open Ned.Library Relation

variable {ranges : List SnippetRange}

/-! ## Ancestry -/

/-- `parent` is the field `child` is nested in. -/
def Up (ranges : List SnippetRange) (child parent : SnippetRange) : Prop :=
  child ∈ ranges ∧ parent ∈ ranges ∧ child.parentId = parent.id

/-- Nested in, at any depth. -/
def Ancestor (ranges : List SnippetRange) (ancestor range : SnippetRange) : Prop :=
  TransGen (Up ranges) range ancestor

/-- Neither is an ancestor of the other. -/
def Unrelated (ranges : List SnippetRange) (a b : SnippetRange) : Prop :=
  a ∈ ranges ∧ b ∈ ranges ∧ a ≠ b ∧ ¬Ancestor ranges a b ∧ ¬Ancestor ranges b a

/-- Fields with distinct ids that nest properly, at most one of them active. -/
structure Nested (ranges : List SnippetRange) : Prop where
  ids : (ranges.map id).Nodup
  idsPos : ∀ range ∈ ranges, range.id ≠ 0
  ordered : ∀ range ∈ ranges, range.start ≤ range.stop
  inside : ∀ child parent, Up ranges child parent →
    parent.start ≤ child.start ∧ child.stop ≤ parent.stop
  acyclic : ∀ range, ¬Ancestor ranges range range
  apart : ∀ a b, Unrelated ranges a b → a.stop ≤ b.start ∨ b.stop ≤ a.start
  active : ∀ a ∈ ranges, ∀ b ∈ ranges, a.active = true → b.active = true → a = b

/-- The fields that grow when text lands at their edges: the active one and its ancestors. -/
def Grows (ranges : List SnippetRange) (range : SnippetRange) : Prop :=
  ∃ active ∈ ranges, active.active = true ∧ ReflTransGen (Up ranges) active range

/-! ## Edits -/

inductive Edit where
  | insert (offset length : Nat)
  | delete (offset length : Nat)
  | setActive (id : Nat)
  deriving DecidableEq

def step (ranges : List SnippetRange) : Edit → Option (List SnippetRange)
  | .insert offset length => some (relocateForInsert ranges offset length)
  | .delete offset length => some (relocateForDelete ranges offset (offset + length))
  | .setActive id => some (setActive ranges id)

/-- An empty field that does not grow sits where the text is inserted, at the end of a nonempty field
it is nested in that does not grow either, or at the start of an unrelated nonempty one that does. -/
def Squeezed (ranges : List SnippetRange) (offset : Nat) : Prop :=
  ∃ empty other, empty ∈ ranges ∧ ¬Grows ranges empty ∧ empty.start = offset ∧
    empty.stop = offset ∧ other.start < other.stop ∧
      ((Up ranges empty other ∧ ¬Grows ranges other ∧ other.stop = offset) ∨
        (Unrelated ranges empty other ∧ Grows ranges other ∧ other.start = offset))

/-- The edit inserts nothing where a field is squeezed. -/
def Keeps (ranges : List SnippetRange) : Edit → Prop
  | .insert offset length => 0 < length → ¬Squeezed ranges offset
  | .delete .. => True
  | .setActive _ => True

/-! ## Which fields grow -/

section Growing

variable {a b : SnippetRange}

theorem eq_of_id (h : Nested ranges) (ha : a ∈ ranges) (hb : b ∈ ranges)
    (hid : a.id = b.id) : a = b :=
  List.inj_on_of_nodup_map h.ids ha hb hid

theorem up_unique (h : Nested ranges) : Relator.RightUnique (Up ranges) := by
  intro child a b ha hb
  exact eq_of_id h ha.2.1 hb.2.1 (ha.2.2.symm.trans hb.2.2)

theorem find_id (h : Nested ranges) {range : SnippetRange} (hrange : range ∈ ranges) :
    ranges.find? (·.id == range.id) = some range := by
  cases hfind : ranges.find? (·.id == range.id) with
  | none =>
      have := List.find?_eq_none.1 hfind range hrange
      simp at this
  | some found =>
      have hid := List.find?_some hfind
      rw [eq_of_id h (List.mem_of_find?_eq_some hfind) hrange (beq_iff_eq.1 hid)]

/-- A way up of `n` steps. -/
inductive Climbs (ranges : List SnippetRange) : Nat → SnippetRange → SnippetRange → Prop
  | refl {range : SnippetRange} (h : range ∈ ranges) : Climbs ranges 0 range range
  | up {n : Nat} {range parent top : SnippetRange} (h : Up ranges range parent)
      (hup : Climbs ranges n parent top) : Climbs ranges (n + 1) range top

theorem exists_climbs {range top : SnippetRange} (hrange : range ∈ ranges)
    (h : ReflTransGen (Up ranges) range top) : ∃ n, Climbs ranges n range top := by
  induction h using ReflTransGen.head_induction_on with
  | refl => exact ⟨0, .refl hrange⟩
  | head hup _ ih =>
      obtain ⟨n, hn⟩ := ih hup.2.1
      exact ⟨n + 1, .up hup hn⟩

/-- No id is met twice on the way up, so the way is shorter than the list. -/
theorem Climbs.ids (h : Nested ranges) {n : Nat} {range top : SnippetRange}
    (hclimb : Climbs ranges n range top) :
    ∃ visited : List Nat, visited.length = n + 1 ∧ visited.Nodup ∧
      ∀ x ∈ visited, ∃ met ∈ ranges, met.id = x ∧ ReflTransGen (Up ranges) range met := by
  induction hclimb with
  | @refl range hmem =>
      refine ⟨[range.id], rfl, List.nodup_singleton _, fun x hx => ?_⟩
      obtain rfl := List.mem_singleton.1 hx
      exact ⟨range, hmem, rfl, .refl⟩
  | @up n range parent top hup _ ih =>
      obtain ⟨visited, hlength, hnodup, hmet⟩ := ih
      refine ⟨range.id :: visited, by rw [List.length_cons, hlength], ?_, fun x hx => ?_⟩
      · refine List.nodup_cons.2 ⟨fun hmem => ?_, hnodup⟩
        obtain ⟨met, hin, hid, hway⟩ := hmet _ hmem
        obtain rfl := eq_of_id h hin hup.1 hid
        exact h.acyclic met (.head' hup hway)
      · rcases List.mem_cons.1 hx with rfl | hx
        · exact ⟨range, hup.1, rfl, .refl⟩
        · obtain ⟨met, hin, hid, hway⟩ := hmet x hx
          exact ⟨met, hin, hid, .head hup hway⟩

theorem Climbs.lt_length (h : Nested ranges) {n : Nat} {range top : SnippetRange}
    (hclimb : Climbs ranges n range top) : n < ranges.length := by
  obtain ⟨visited, hlength, hnodup, hmet⟩ := hclimb.ids h
  have hsub : visited ⊆ ranges.map SnippetRange.id := by
    intro x hx
    obtain ⟨met, hin, rfl, -⟩ := hmet x hx
    exact List.mem_map_of_mem hin
  have hle := (List.subperm_of_subset hnodup hsub).length_le
  rw [List.length_map, hlength] at hle
  exact hle

theorem mem_ancestorIds_of_climbs (h : Nested ranges) {n steps : Nat} {range top : SnippetRange}
    (hclimb : Climbs ranges n range top) (hlt : n < steps) :
    top.id ∈ ancestorIds ranges steps range.id := by
  induction hclimb generalizing steps with
  | @refl range hmem =>
      cases steps with
      | zero => cases hlt
      | succ steps =>
          rw [ancestorIds, if_neg (h.idsPos range hmem)]
          exact List.mem_cons_self
  | @up n range parent top hup _ ih =>
      cases steps with
      | zero => cases hlt
      | succ steps =>
          rw [ancestorIds, if_neg (h.idsPos range hup.1), find_id h hup.1]
          refine List.mem_cons_of_mem _ ?_
          simp only [hup.2.2]
          exact ih (Nat.lt_of_succ_lt_succ hlt)

theorem reflTransGen_of_mem_ancestorIds (h : Nested ranges) {steps : Nat} {range top : SnippetRange}
    (hrange : range ∈ ranges) (htop : top ∈ ranges)
    (hmem : top.id ∈ ancestorIds ranges steps range.id) :
    ReflTransGen (Up ranges) range top := by
  induction steps generalizing range with
  | zero => cases hmem
  | succ steps ih =>
      rw [ancestorIds, if_neg (h.idsPos range hrange), find_id h hrange] at hmem
      rcases List.mem_cons.1 hmem with hid | hmem
      · rw [eq_of_id h htop hrange hid]
      · simp only at hmem
        by_cases hparent : ∃ parent ∈ ranges, parent.id = range.parentId
        · obtain ⟨parent, hin, hid⟩ := hparent
          rw [← hid] at hmem
          exact .head ⟨hrange, hin, hid.symm⟩ (ih hin hmem)
        · -- the parent is not there, and the walk ends at its id
          have hnone : ranges.find? (·.id == range.parentId) = none := by
            refine List.find?_eq_none.2 fun other hother hid => hparent ⟨other, hother, ?_⟩
            exact beq_iff_eq.1 hid
          have hend : ∀ k, ancestorIds ranges k 0 = [] := by
            intro k
            cases k <;> rfl
          refine absurd ⟨top, htop, ?_⟩ hparent
          cases steps with
          | zero => cases hmem
          | succ steps =>
              rw [ancestorIds, hnone, hend] at hmem
              split at hmem
              · cases hmem
              · exact List.mem_singleton.1 hmem

theorem mem_inclusiveIds (h : Nested ranges) {range : SnippetRange} (hrange : range ∈ ranges) :
    range.id ∈ inclusiveIds ranges ↔ Grows ranges range := by
  unfold inclusiveIds
  split
  · rename_i hnone
    refine ⟨fun hmem => absurd hmem List.not_mem_nil, fun ⟨active, hin, hactive, _⟩ => ?_⟩
    exact absurd hactive (List.find?_eq_none.1 hnone active hin)
  · rename_i active hsome
    have hin := List.mem_of_find?_eq_some hsome
    have hactive := List.find?_some hsome
    constructor
    · intro hmem
      exact ⟨active, hin, hactive, reflTransGen_of_mem_ancestorIds h hin hrange hmem⟩
    · rintro ⟨active', hin', hactive', hway⟩
      obtain rfl := h.active active' hin' active hin hactive' hactive
      obtain ⟨n, hclimb⟩ := exists_climbs hin hway
      exact mem_ancestorIds_of_climbs h hclimb (hclimb.lt_length h)

theorem Grows.up (h : Grows ranges a) (hup : Up ranges a b) : Grows ranges b := by
  obtain ⟨active, hin, hactive, hway⟩ := h
  exact ⟨active, hin, hactive, hway.tail hup⟩

/-- Of two fields that grow, one is an ancestor of the other. -/
theorem Grows.related (h : Nested ranges) (ha : Grows ranges a) (hb : Grows ranges b) :
    ¬Unrelated ranges a b := by
  rintro ⟨-, -, hne, hab, hba⟩
  obtain ⟨active, hin, hactive, hwaya⟩ := ha
  obtain ⟨active', hin', hactive', hwayb⟩ := hb
  obtain rfl := h.active active hin active' hin' hactive hactive'
  rcases ReflTransGen.total_of_right_unique (up_unique h) hwaya hwayb with hway | hway
  · rcases reflTransGen_iff_eq_or_transGen.1 hway with heq | hway
    · exact hne heq.symm
    · exact hba hway
  · rcases reflTransGen_iff_eq_or_transGen.1 hway with heq | hway
    · exact hne heq
    · exact hab hway

end Growing

/-! ## Moving every field -/

section Moving

variable {f : SnippetRange → SnippetRange} {a b : SnippetRange}

/-- The fields keep their ids and what they are nested in. -/
def SameLinks (f : SnippetRange → SnippetRange) : Prop :=
  ∀ range, (f range).id = range.id ∧ (f range).parentId = range.parentId

theorem up_map (hf : SameLinks f) (ha : a ∈ ranges) (hb : b ∈ ranges) :
    Up (ranges.map f) (f a) (f b) ↔ Up ranges a b := by
  refine ⟨fun hup => ⟨ha, hb, ?_⟩, fun hup =>
    ⟨List.mem_map_of_mem ha, List.mem_map_of_mem hb, ?_⟩⟩
  · rw [← (hf a).2, ← (hf b).1]
    exact hup.2.2
  · rw [(hf a).2, (hf b).1]
    exact hup.2.2

theorem eq_of_map (h : Nested ranges) (hf : SameLinks f) (ha : a ∈ ranges) (hb : b ∈ ranges)
    (heq : f a = f b) : a = b := by
  refine eq_of_id h ha hb ?_
  rw [← (hf a).1, ← (hf b).1, heq]

theorem ancestor_map (h : Nested ranges) (hf : SameLinks f) (ha : a ∈ ranges) (hb : b ∈ ranges) :
    Ancestor (ranges.map f) (f a) (f b) ↔ Ancestor ranges a b := by
  constructor
  · intro hway
    have hback : ∀ x, TransGen (Up (ranges.map f)) (f b) x →
        ∃ c ∈ ranges, x = f c ∧ TransGen (Up ranges) b c := by
      intro x hx
      induction hx with
      | single hup =>
          obtain ⟨c, hc, rfl⟩ := List.mem_map.1 hup.2.1
          exact ⟨c, hc, rfl, .single ((up_map hf hb hc).1 hup)⟩
      | tail _ hup ih =>
          obtain ⟨c, hc, rfl, hbc⟩ := ih
          obtain ⟨d, hd, rfl⟩ := List.mem_map.1 hup.2.1
          exact ⟨d, hd, rfl, .tail hbc ((up_map hf hc hd).1 hup)⟩
    obtain ⟨c, hc, heq, hbc⟩ := hback _ hway
    rw [eq_of_map h hf ha hc heq]
    exact hbc
  · intro hway
    refine TransGen.lift f (fun x y hup => ?_) _ _ hway
    exact (up_map hf hup.1 hup.2.1).2 hup

/-- What is left to check once the links are kept. -/
structure MovedApart (ranges : List SnippetRange) (f : SnippetRange → SnippetRange) : Prop where
  ordered : ∀ range ∈ ranges, (f range).start ≤ (f range).stop
  inside : ∀ child parent, Up ranges child parent →
    (f parent).start ≤ (f child).start ∧ (f child).stop ≤ (f parent).stop
  apart : ∀ a b, Unrelated ranges a b → (f a).stop ≤ (f b).start ∨ (f b).stop ≤ (f a).start

theorem unrelated_map (h : Nested ranges) (hf : SameLinks f) (ha : a ∈ ranges) (hb : b ∈ ranges) :
    Unrelated (ranges.map f) (f a) (f b) ↔ Unrelated ranges a b := by
  constructor
  · rintro ⟨-, -, hne, hab, hba⟩
    refine ⟨ha, hb, fun heq => hne (heq ▸ rfl), ?_, ?_⟩
    · rwa [ancestor_map h hf ha hb] at hab
    · rwa [ancestor_map h hf hb ha] at hba
  · rintro ⟨-, -, hne, hab, hba⟩
    refine ⟨List.mem_map_of_mem ha, List.mem_map_of_mem hb,
      fun heq => hne (eq_of_map h hf ha hb heq), ?_, ?_⟩
    · rwa [ancestor_map h hf ha hb]
    · rwa [ancestor_map h hf hb ha]

theorem nested_map_iff (h : Nested ranges) (hf : SameLinks f)
    (hactive : ∀ a ∈ ranges, ∀ b ∈ ranges, (f a).active = true → (f b).active = true → a = b) :
    Nested (ranges.map f) ↔ MovedApart ranges f := by
  have hids : (ranges.map f).map SnippetRange.id = ranges.map SnippetRange.id := by
    rw [List.map_map]
    exact List.map_congr_left fun range _ => (hf range).1
  constructor
  · intro hnested
    refine ⟨fun range hrange => hnested.ordered _ (List.mem_map_of_mem hrange),
      fun child parent hup => ?_, fun a b hab => ?_⟩
    · exact hnested.inside _ _ ((up_map hf hup.1 hup.2.1).2 hup)
    · exact hnested.apart _ _ ((unrelated_map h hf hab.1 hab.2.1).2 hab)
  · intro hmoved
    refine ⟨hids.symm ▸ h.ids, ?_, ?_, ?_, ?_, ?_, ?_⟩
    · intro moved hmem
      obtain ⟨range, hrange, rfl⟩ := List.mem_map.1 hmem
      rw [(hf range).1]
      exact h.idsPos range hrange
    · intro moved hmem
      obtain ⟨range, hrange, rfl⟩ := List.mem_map.1 hmem
      exact hmoved.ordered range hrange
    · intro child' parent' hup
      obtain ⟨child, hchild, rfl⟩ := List.mem_map.1 hup.1
      obtain ⟨parent, hparent, rfl⟩ := List.mem_map.1 hup.2.1
      exact hmoved.inside child parent ((up_map hf hchild hparent).1 hup)
    · intro moved hcycle
      obtain ⟨next, hup, -⟩ := TransGen.head'_iff.1 hcycle
      obtain ⟨range, hrange, rfl⟩ := List.mem_map.1 hup.1
      exact h.acyclic range ((ancestor_map h hf hrange hrange).1 hcycle)
    · intro a' b' hab
      obtain ⟨a, ha, rfl⟩ := List.mem_map.1 hab.1
      obtain ⟨b, hb, rfl⟩ := List.mem_map.1 hab.2.1
      exact hmoved.apart a b ((unrelated_map h hf ha hb).1 hab)
    · intro a' ha' b' hb' hactivea hactiveb
      obtain ⟨a, ha, rfl⟩ := List.mem_map.1 ha'
      obtain ⟨b, hb, rfl⟩ := List.mem_map.1 hb'
      rw [hactive a ha b hb hactivea hactiveb]

end Moving

/-! ## Insertion -/

section Insertion

variable {offset length : Nat} {range a b : SnippetRange}

/-- Where an insertion takes a field. -/
def inserted (ranges : List SnippetRange) (offset length : Nat) (range : SnippetRange) :
    SnippetRange :=
  if (inclusiveIds ranges).contains range.id then
    (range.insertInclusive offset length).ordered
  else
    (range.insertExclusive offset length).ordered

theorem inserted_sameLinks : SameLinks (inserted ranges offset length) := by
  intro range
  unfold inserted
  split <;> exact ⟨rfl, rfl⟩

theorem inserted_active : (inserted ranges offset length range).active = range.active := by
  unfold inserted
  split <;> rfl

theorem inserted_ordered :
    (inserted ranges offset length range).start ≤ (inserted ranges offset length range).stop := by
  unfold inserted
  split <;> exact le_max_left _ _

theorem inserted_of_grows (offset length : Nat) (h : Nested ranges) (hrange : range ∈ ranges)
    (hgrows : Grows ranges range) :
    (inserted ranges offset length range).start =
        (if offset < range.start then range.start + length else range.start) ∧
      (inserted ranges offset length range).stop =
        (if offset ≤ range.stop then range.stop + length else range.stop) := by
  have hmem := List.elem_eq_true_of_mem ((mem_inclusiveIds h hrange).2 hgrows)
  have hle := h.ordered range hrange
  unfold inserted
  rw [List.contains, hmem, if_pos rfl]
  refine ⟨rfl, ?_⟩
  simp only [ordered, insertInclusive]
  split_ifs <;> omega

/-- A field that does not grow is moved whole by text at its start, and so is an empty one. -/
theorem inserted_of_not_grows (offset length : Nat) (h : Nested ranges) (hrange : range ∈ ranges)
    (hgrows : ¬Grows ranges range) :
    (inserted ranges offset length range).start =
        (if offset ≤ range.start then range.start + length else range.start) ∧
      (inserted ranges offset length range).stop =
        (if offset < range.stop ∨ offset = range.start ∧ offset = range.stop then
          range.stop + length
        else
          range.stop) := by
  have hmem : ¬(inclusiveIds ranges).contains range.id = true := fun hmem =>
    hgrows ((mem_inclusiveIds h hrange).1 (List.contains_iff_mem.1 hmem))
  have hle := h.ordered range hrange
  unfold inserted
  rw [if_neg hmem]
  refine ⟨rfl, ?_⟩
  simp only [ordered, insertExclusive]
  split_ifs <;> omega

theorem not_grows_of_up (hup : Up ranges a b) (hgrows : ¬Grows ranges b) : ¬Grows ranges a :=
  fun h => hgrows (h.up hup)

theorem inserted_inside (h : Nested ranges) (hsqueezed : ¬Squeezed ranges offset) {child parent}
    (hup : Up ranges child parent) :
    (inserted ranges offset length parent).start ≤ (inserted ranges offset length child).start ∧
      (inserted ranges offset length child).stop ≤ (inserted ranges offset length parent).stop := by
  obtain ⟨hstart, hstop⟩ := h.inside child parent hup
  have hchild := h.ordered child hup.1
  by_cases hp : Grows ranges parent
  · obtain ⟨hps, hpe⟩ := inserted_of_grows offset length h hup.2.1 hp
    rw [hps, hpe]
    by_cases hc : Grows ranges child
    · obtain ⟨hcs, hce⟩ := inserted_of_grows offset length h hup.1 hc
      rw [hcs, hce]
      constructor <;> split_ifs <;> omega
    · obtain ⟨hcs, hce⟩ := inserted_of_not_grows offset length h hup.1 hc
      rw [hcs, hce]
      constructor <;> split_ifs <;> omega
  · have hc := not_grows_of_up hup hp
    have hroom : child.start = offset → child.stop = offset → parent.stop = offset →
        parent.start = parent.stop := by
      intro hcs hce hpe
      refine (h.ordered parent hup.2.1).eq_of_not_lt fun hlt => hsqueezed ?_
      exact ⟨child, parent, hup.1, hc, hcs, hce, hlt, .inl ⟨hup, hp, hpe⟩⟩
    obtain ⟨hps, hpe⟩ := inserted_of_not_grows offset length h hup.2.1 hp
    obtain ⟨hcs, hce⟩ := inserted_of_not_grows offset length h hup.1 hc
    rw [hps, hpe, hcs, hce]
    constructor <;> split_ifs <;> omega

theorem Unrelated.symm (h : Unrelated ranges a b) : Unrelated ranges b a :=
  ⟨h.2.1, h.1, h.2.2.1.symm, h.2.2.2.2, h.2.2.2.1⟩

theorem inserted_apart (h : Nested ranges) (hsqueezed : ¬Squeezed ranges offset)
    (hab : Unrelated ranges a b) (hle : a.stop ≤ b.start) :
    (inserted ranges offset length a).stop ≤ (inserted ranges offset length b).start ∨
      (inserted ranges offset length b).stop ≤ (inserted ranges offset length a).start := by
  have hordera := h.ordered a hab.1
  have horderb := h.ordered b hab.2.1
  by_cases hb : Grows ranges b
  · have ha : ¬Grows ranges a := fun ha => ha.related h hb hab
    have hroom : a.start = offset → a.stop = offset → b.start = offset → b.start = b.stop := by
      intro has hae hbs
      refine horderb.eq_of_not_lt fun hlt => hsqueezed ?_
      exact ⟨a, b, hab.1, ha, has, hae, hlt, .inr ⟨hab, hb, hbs⟩⟩
    obtain ⟨has, hae⟩ := inserted_of_not_grows offset length h hab.1 ha
    obtain ⟨hbs, hbe⟩ := inserted_of_grows offset length h hab.2.1 hb
    rw [has, hae, hbs, hbe]
    split_ifs <;> omega
  · left
    obtain ⟨hbs, -⟩ := inserted_of_not_grows offset length h hab.2.1 hb
    by_cases ha : Grows ranges a
    · obtain ⟨-, hae⟩ := inserted_of_grows offset length h hab.1 ha
      rw [hae, hbs]
      split_ifs <;> omega
    · obtain ⟨-, hae⟩ := inserted_of_not_grows offset length h hab.1 ha
      rw [hae, hbs]
      split_ifs <;> omega

theorem inserted_movedApart (h : Nested ranges) (hsqueezed : ¬Squeezed ranges offset) :
    MovedApart ranges (inserted ranges offset length) where
  ordered _ _ := inserted_ordered
  inside _ _ hup := inserted_inside h hsqueezed hup
  apart a b hab := by
    rcases h.apart a b hab with hle | hle
    · exact inserted_apart h hsqueezed hab hle
    · exact (inserted_apart h hsqueezed hab.symm hle).symm

theorem not_movedApart_of_squeezed (h : Nested ranges) (hlength : 0 < length)
    (hsqueezed : Squeezed ranges offset) : ¬MovedApart ranges (inserted ranges offset length) := by
  obtain ⟨empty, other, hempty, hgrows, hstart, hstop, hlt, hcase⟩ := hsqueezed
  obtain ⟨hes, hee⟩ := inserted_of_not_grows offset length h hempty hgrows
  rw [if_pos hstart.ge] at hes
  rw [if_pos (.inr ⟨hstart.symm, hstop.symm⟩)] at hee
  intro hmoved
  rcases hcase with ⟨hup, hother, hend⟩ | ⟨hun, hother, hend⟩
  · -- the parent stays where it ends, and the text takes the field past it
    obtain ⟨-, hoe⟩ := inserted_of_not_grows offset length h hup.2.1 hother
    have hle := (hmoved.inside empty other hup).2
    rw [hee, hoe, if_neg (by omega)] at hle
    omega
  · -- the growing field takes the text in, and with it the field in front
    obtain ⟨hos, hoe⟩ := inserted_of_grows offset length h hun.2.1 hother
    have hle := hmoved.apart empty other hun
    rw [hes, hee, hos, hoe, if_neg (by omega), if_pos (by omega)] at hle
    omega

theorem inserted_zero (h : Nested ranges) (hrange : range ∈ ranges) :
    inserted ranges offset 0 range = range := by
  have hle := h.ordered range hrange
  unfold inserted
  split <;> simp [ordered, insertInclusive, insertExclusive, max_eq_right hle]

theorem nested_relocateForInsert_iff (h : Nested ranges) :
    Nested (relocateForInsert ranges offset length) ↔ (0 < length → ¬Squeezed ranges offset) := by
  have hmap : relocateForInsert ranges offset length = ranges.map (inserted ranges offset length) :=
    rfl
  rw [hmap]
  rcases length.eq_zero_or_pos with rfl | hlength
  · rw [List.map_congr_left fun range hrange => inserted_zero h hrange, List.map_id']
    exact ⟨fun _ hpos => absurd hpos (lt_irrefl 0), fun _ => h⟩
  · have hiff := nested_map_iff (f := inserted ranges offset length) h inserted_sameLinks
      fun a ha b hb hactivea hactiveb =>
        h.active a ha b hb (inserted_active ▸ hactivea) (inserted_active ▸ hactiveb)
    rw [hiff]
    refine ⟨fun hmoved _ hsqueezed => ?_, fun hsqueezed => inserted_movedApart h (hsqueezed hlength)⟩
    exact not_movedApart_of_squeezed h hlength hsqueezed hmoved

end Insertion

/-! ## The other edits -/

section OtherEdits

theorem relocateForDelete_mono {x y start stop : Nat} (hle : x ≤ y) :
    Text.relocateForDelete x start stop ≤ Text.relocateForDelete y start stop := by
  unfold Text.relocateForDelete
  split_ifs <;> omega

theorem nested_relocateForDelete (h : Nested ranges) (offset length : Nat) :
    Nested (relocateForDelete ranges offset (offset + length)) := by
  unfold relocateForDelete
  refine Iff.mpr (nested_map_iff h ?_ ?_) ⟨?_, ?_, ?_⟩
  · exact fun range => ⟨rfl, rfl⟩
  · exact h.active
  · exact fun range hrange => relocateForDelete_mono (h.ordered range hrange)
  · intro child parent hup
    obtain ⟨hstart, hstop⟩ := h.inside child parent hup
    exact ⟨relocateForDelete_mono hstart, relocateForDelete_mono hstop⟩
  · intro a b hab
    exact (h.apart a b hab).imp relocateForDelete_mono relocateForDelete_mono

theorem nested_setActive (h : Nested ranges) (id : Nat) : Nested (setActive ranges id) := by
  unfold setActive
  refine Iff.mpr (nested_map_iff h ?_ ?_) ⟨h.ordered, h.inside, h.apart⟩
  · exact fun range => ⟨rfl, rfl⟩
  intro a ha b hb hactivea hactiveb
  exact eq_of_id h ha hb ((beq_iff_eq.1 hactivea).trans (beq_iff_eq.1 hactiveb).symm)

theorem step_total (ranges : List SnippetRange) (edit : Edit) :
    ∃ ranges', step ranges edit = some ranges' := by
  cases edit <;> exact ⟨_, rfl⟩

theorem step_nested_iff (ranges : List SnippetRange) (edit : Edit) (ranges' : List SnippetRange)
    (h : Nested ranges) (hstep : step ranges edit = some ranges') :
    Nested ranges' ↔ Keeps ranges edit := by
  cases edit with
  | insert offset length =>
      cases hstep
      exact nested_relocateForInsert_iff h
  | delete offset length =>
      cases hstep
      exact iff_of_true (nested_relocateForDelete h offset length) trivial
  | setActive id =>
      cases hstep
      exact iff_of_true (nested_setActive h id) trivial

end OtherEdits

/-- The fields stay nested throughout a run of edits exactly as long as none inserts text where a
field is squeezed. -/
theorem stays_nested_iff {edits : List Edit} (h : Nested ranges) :
    (∀ first ranges', first <+: edits → run step ranges first = some ranges' → Nested ranges') ↔
      Admissible step Keeps ranges edits :=
  run_invariant_iff Nested step_total step_nested_iff h

/-- A field of three letters and an empty one at its end. -/
def sampleRanges : List SnippetRange :=
  [⟨1, 2, 5, false, 0⟩, ⟨2, 5, 5, false, 1⟩]

theorem sampleRanges_up {child parent : SnippetRange} :
    Up sampleRanges child parent ↔ child = ⟨2, 5, 5, false, 1⟩ ∧ parent = ⟨1, 2, 5, false, 0⟩ := by
  simp only [Up, sampleRanges, List.mem_cons, List.not_mem_nil, or_false]
  constructor
  · rintro ⟨rfl | rfl, rfl | rfl, hid⟩ <;> simp_all
  · rintro ⟨rfl, rfl⟩
    simp

theorem sampleRanges_nested : Nested sampleRanges where
  ids := by decide
  idsPos := by decide
  ordered := by decide
  inside child parent hup := by
    obtain ⟨rfl, rfl⟩ := sampleRanges_up.1 hup
    decide
  acyclic range hcycle := by
    obtain ⟨next, hup, -⟩ := TransGen.head'_iff.1 hcycle
    obtain ⟨last, -, hlast⟩ := TransGen.tail'_iff.1 hcycle
    have := (sampleRanges_up.1 hup).1.symm.trans (sampleRanges_up.1 hlast).2
    cases this
  apart a b hab := by
    obtain ⟨ha, hb, hne, hdown, hup⟩ := hab
    simp only [sampleRanges, List.mem_cons, List.not_mem_nil, or_false] at ha hb
    rcases ha with rfl | rfl <;> rcases hb with rfl | rfl <;> simp_all
  active := by decide

/-- The empty field is made active, grows with the text typed into it, and is taken out again. -/
theorem stays_nested_sample :
    run step sampleRanges [.setActive 2, .insert 5 3, .delete 4 2] =
        some [⟨1, 2, 6, false, 0⟩, ⟨2, 4, 6, true, 1⟩] ∧
      Nested [⟨1, 2, 6, false, 0⟩, ⟨2, 4, 6, true, 1⟩] := by
  have hgrows : Grows (setActive sampleRanges 2) ⟨2, 5, 5, true, 1⟩ :=
    ⟨_, by decide, rfl, .refl⟩
  have hkeeps : Admissible step Keeps sampleRanges [.setActive 2, .insert 5 3, .delete 4 2] := by
    refine ⟨trivial, fun ranges hactive => ?_⟩
    cases hactive
    refine ⟨fun _ hsqueezed => ?_, fun _ _ => ⟨trivial, fun _ _ => trivial⟩⟩
    obtain ⟨empty, other, hempty, hnot, hstart, hstop, -⟩ := hsqueezed
    have hcases : empty = ⟨1, 2, 5, false, 0⟩ ∨ empty = ⟨2, 5, 5, true, 1⟩ := by
      simpa [setActive, sampleRanges] using hempty
    rcases hcases with rfl | rfl
    · cases hstart
    · exact hnot hgrows
  exact ⟨rfl, (stays_nested_iff sampleRanges_nested).2 hkeeps _ _ (List.prefix_refl _) rfl⟩

/-- Neither field is active, and a letter typed at their common end pushes the empty one out. -/
theorem not_stays_nested :
    ¬ ∀ (ranges : List SnippetRange) (offset length : Nat), Nested ranges →
      Nested (relocateForInsert ranges offset length) := by
  intro h
  have hnested := h sampleRanges 5 1 sampleRanges_nested
  have hinside := hnested.inside ⟨2, 6, 6, false, 1⟩ ⟨1, 2, 5, false, 0⟩ ⟨by decide, by decide, rfl⟩
  exact absurd hinside.2 (by decide)

end Ned.Text.SnippetRange
