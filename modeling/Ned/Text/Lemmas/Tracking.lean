import Ned.Text.Tracking

/-!
# The journal and the anchors

Both follow the full history of commits: the journal holds a suffix of it, and an anchor's entry
holds its offset carried through everything since the anchor was created.
-/

namespace Ned.Text

/-! ## Relocation -/

theorem relocateThroughAll_append (o : Nat) (ops ops' : List EditOp) (p : AnchorPolicy) :
    relocateThroughAll o (ops ++ ops') p =
      (relocateThroughAll o ops p).bind fun o' => relocateThroughAll o' ops' p := by
  induction ops generalizing o with
  | nil => rfl
  | cons op ops ih =>
      simp only [List.cons_append, relocateThroughAll, Option.bind_eq_bind]
      cases relocateThrough o op p with
      | none => rfl
      | some next => exact ih next

theorem relocateThroughAll_snoc (o : Nat) (ops : List EditOp) (op : EditOp) (p : AnchorPolicy) :
    relocateThroughAll o (ops ++ [op]) p =
      (relocateThroughAll o ops p).bind fun o' => relocateThrough o' op p := by
  rw [relocateThroughAll_append]
  congr 1
  funext o'
  simp only [relocateThroughAll, Option.bind_eq_bind]
  exact Option.bind_fun_some _

@[simp] theorem relocateThrough_barrierAt (o g : Nat) (p : AnchorPolicy) :
    relocateThrough o (.barrierAt g) p = none := rfl

theorem relocateThrough_replaced (o g g' offset oldLength newLength : Nat) (p : AnchorPolicy) :
    relocateThrough o (.replaced g offset oldLength newLength) p =
      relocateThrough o (.replaced g' offset oldLength newLength) p := rfl

theorem relocateThrough_identity (o g offset : Nat) (p : AnchorPolicy) :
    relocateThrough o (.replaced g offset 0 0) p = some o := by
  rcases Nat.lt_trichotomy o offset with h | rfl | h
  · simp [relocateThrough, EditOp.replaced, h]
  · simp [relocateThrough, EditOp.replaced]
  · simp [relocateThrough, EditOp.replaced, Nat.not_lt.2 (Nat.le_of_lt h), Nat.ne_of_gt h,
      Nat.le_of_lt h]

/-! ## The journal -/

namespace EditJournal

/-- The journal holds the end of a history whose generations count up from 1. -/
structure Records (journal : EditJournal) (history : List EditOp) : Prop where
  generations : history.map EditOp.generation = List.range' 1 history.length
  held : ∃ dropped, history = dropped ++ journal.ops ∧ journal.oldestReachable = dropped.length

theorem records_empty : Records .empty [] := ⟨rfl, [], rfl, rfl⟩

theorem trim_eq (oldest : Nat) (ops : List EditOp) :
    (∃ dropped, ops = dropped ++ (trim oldest ops).ops ∧
      (dropped = [] ∧ (trim oldest ops).oldestReachable = oldest ∨
        ∃ op, dropped.getLast? = some op ∧ (trim oldest ops).oldestReachable = op.generation)) := by
  induction ops generalizing oldest with
  | nil => exact ⟨[], rfl, Or.inl ⟨rfl, rfl⟩⟩
  | cons op ops ih =>
      unfold trim
      split
      · obtain ⟨dropped, heq, hold⟩ := ih op.generation
        refine ⟨op :: dropped, by rw [List.cons_append, ← heq], Or.inr ?_⟩
        rcases hold with ⟨rfl, hold⟩ | ⟨last, hlast, hold⟩
        · exact ⟨op, rfl, hold⟩
        · exact ⟨last, by rw [List.getLast?_cons, hlast, Option.getD_some], hold⟩
      · exact ⟨[], rfl, Or.inl ⟨rfl, rfl⟩⟩

theorem Records.getElem_generation {journal : EditJournal} {history : List EditOp}
    (h : journal.Records history) {i : Nat} {op : EditOp} (hi : history[i]? = some op) :
    op.generation = i + 1 := by
  have hlt : i < history.length := (List.getElem?_eq_some_iff.1 hi).1
  have hgen : (history.map EditOp.generation)[i]? = some op.generation := by
    rw [List.getElem?_map, hi, Option.map_some]
  rw [h.generations, List.getElem?_range' hlt, Nat.one_mul, Nat.add_comm] at hgen
  exact (Option.some.inj hgen).symm

theorem Records.record {journal : EditJournal} {history : List EditOp} {op : EditOp}
    (h : journal.Records history) (hop : op.generation = history.length + 1) :
    (journal.record op).Records (history ++ [op]) := by
  have hgen : (history ++ [op]).map EditOp.generation =
      List.range' 1 (history ++ [op]).length := by
    rw [List.map_append, h.generations, List.length_append, List.length_singleton,
      List.range'_append_1.symm, List.map_singleton, hop, Nat.add_comm]
    rfl
  refine ⟨hgen, ?_⟩
  obtain ⟨dropped, heq, hold⟩ := h.held
  obtain ⟨dropped', heq', hold'⟩ := trim_eq journal.oldestReachable (journal.ops ++ [op])
  refine ⟨dropped ++ dropped', ?_, ?_⟩
  · rw [List.append_assoc, EditJournal.record, ← heq', ← List.append_assoc, ← heq]
  · rcases hold' with ⟨rfl, hold'⟩ | ⟨last, hlast, hold'⟩
    · rw [EditJournal.record, hold', hold, List.append_nil]
    · -- the last discarded edit carries its own position as its generation
      have hlast' : (history ++ [op])[(dropped ++ dropped').length - 1]? = some last := by
        rw [heq, List.append_assoc, heq', ← List.append_assoc, List.getElem?_append_left,
          ← List.getLast?_eq_getElem?, List.getLast?_append, hlast, Option.some_or]
        cases dropped' with
        | nil => cases hlast
        | cons => simp
      have hrec : (EditJournal.mk (history ++ [op]) 0).Records (history ++ [op]) :=
        ⟨hgen, [], rfl, rfl⟩
      rw [EditJournal.record, hold', hrec.getElem_generation hlast']
      cases dropped' with
      | nil => cases hlast
      | cons => simp [Nat.add_assoc]

theorem Records.opsSince {journal : EditJournal} {history : List EditOp} {g : Nat}
    (h : journal.Records history) (hg : journal.oldestReachable ≤ g) :
    journal.opsSince g = some (history.drop g) := by
  rw [EditJournal.opsSince, if_neg (Nat.not_lt.2 hg)]
  obtain ⟨dropped, heq, hold⟩ := h.held
  have hfilter : ∀ (before : List EditOp) (ops : List EditOp), history = before ++ ops →
      ops.filter (fun op => decide (op.generation > g)) = ops.drop (g - before.length) := by
    intro before ops
    induction ops generalizing before with
    | nil => intro _; simp
    | cons op ops ih =>
        intro hops
        have hop : op.generation = before.length + 1 :=
          h.getElem_generation (by rw [hops, List.getElem?_append_right (Nat.le_refl _)]; simp)
        have hrest := ih (before ++ [op]) (by rw [hops, List.append_assoc]; rfl)
        rw [List.length_append, List.length_singleton] at hrest
        rw [List.filter_cons, hop, hrest]
        split
        · rename_i hlt
          rw [decide_eq_true_eq] at hlt
          rw [show g - before.length = 0 by omega, show g - (before.length + 1) = 0 by omega]
          rfl
        · rename_i hge
          rw [decide_eq_true_eq] at hge
          rw [show g - before.length = (g - (before.length + 1)) + 1 by omega]
          rfl
  rw [hfilter dropped journal.ops heq, heq, List.drop_append,
    List.drop_eq_nil_of_le (hold ▸ hg : dropped.length ≤ g)]
  rfl

theorem Records.relocate {journal : EditJournal} {history : List EditOp} {g : Nat}
    (h : journal.Records history) (hg : journal.oldestReachable ≤ g) (o : Nat) (p : AnchorPolicy) :
    journal.relocate o g p = relocateThroughAll o (history.drop g) p := by
  rw [EditJournal.relocate, h.opsSince hg]
  rfl

end EditJournal

/-! ## The anchors -/

namespace AnchorSet

/-- No slot that is free twice, or taken, is on the list of free slots. -/
structure FreeSlots (anchors : AnchorSet) : Prop where
  nodup : anchors.freeSlots.Nodup
  free : ∀ i ∈ anchors.freeSlots, ∃ entry, anchors.entries[i]? = some entry ∧ entry.occupied = false

theorem freeSlots_empty : FreeSlots .empty :=
  ⟨List.nodup_nil, by simp [AnchorSet.empty]⟩

/-- The slot table after `created` anchors, fewer than there are versions. -/
structure WellFormed (anchors : AnchorSet) (created : Nat) : Prop where
  bound : created < 2 ^ 32
  length_le : anchors.entries.length ≤ created
  nextVersion : anchors.nextVersion = bumpVersion created
  version_le : ∀ entry ∈ anchors.entries, entry.version ≤ created
  free_nodup : anchors.freeSlots.Nodup
  free : ∀ i ∈ anchors.freeSlots, ∃ entry, anchors.entries[i]? = some entry ∧ entry.occupied = false

theorem WellFormed.freeSlots {anchors : AnchorSet} {created : Nat} (h : anchors.WellFormed created) :
    anchors.FreeSlots := ⟨h.free_nodup, h.free⟩

theorem wellFormed_empty : WellFormed .empty 0 :=
  ⟨by decide, Nat.le_refl _, rfl, by simp [AnchorSet.empty], freeSlots_empty.nodup,
    freeSlots_empty.free⟩

theorem bumpVersion_eq {version : Nat} (h : version + 1 < 2 ^ 32) :
    bumpVersion version = version + 1 := by
  rw [bumpVersion, Nat.mod_eq_of_lt h, if_neg (Nat.succ_ne_zero _)]

theorem find_eq_some {anchors : AnchorSet} {id : AnchorId} {entry : Entry} :
    anchors.find id = some entry ↔
      id.version ≠ 0 ∧ anchors.entries[id.index]? = some entry ∧ entry.occupied = true ∧
        entry.version = id.version := by
  unfold find
  split
  · rename_i h
    simp [h]
  · rename_i h
    cases hentry : anchors.entries[id.index]? with
    | none => simp
    | some entry' =>
        simp only [ne_eq, Option.some.injEq, h, not_false_eq_true, true_and]
        cases hocc : entry'.occupied <;> by_cases hver : entry'.version = id.version <;>
          simp [hver] <;> rintro rfl <;> simp_all

/-- The offset an entry resolves to. -/
def Entry.resolved (entry : Entry) : Option Nat := if entry.alive then some entry.offset else none

theorem offset_eq (anchors : AnchorSet) (id : AnchorId) :
    anchors.offset id = (anchors.find id).bind Entry.resolved := by
  unfold AnchorSet.offset
  cases anchors.find id <;> rfl

/-! ### Commits -/

/-- A commit maps the entries: none changes hands, and each occupied one is relocated. -/
structure Relocates (op : EditOp) (anchors anchors' : AnchorSet) (f : Entry → Entry) : Prop where
  eq : anchors' = { anchors with entries := anchors.entries.map f }
  occupied : ∀ entry, (f entry).occupied = entry.occupied
  version : ∀ entry, (f entry).version = entry.version
  policy : ∀ entry, (f entry).policy = entry.policy
  resolved : ∀ entry, entry.occupied = true →
    (f entry).resolved = entry.resolved.bind fun o => relocateThrough o op entry.policy

theorem Entry.applyEdit_keeps (op : EditOp) (entry : Entry) :
    (entry.applyEdit op).occupied = entry.occupied ∧ (entry.applyEdit op).version = entry.version ∧
      (entry.applyEdit op).policy = entry.policy := by
  unfold Entry.applyEdit
  split
  · exact ⟨rfl, rfl, rfl⟩
  · split <;> exact ⟨rfl, rfl, rfl⟩

theorem relocates_applyEdit (anchors : AnchorSet) (g offset oldLength newLength : Nat) :
    ∃ f, Relocates (.replaced g offset oldLength newLength) anchors
      (anchors.applyEdit offset oldLength newLength) f := by
  unfold applyEdit
  split
  · rename_i h
    obtain ⟨rfl, rfl⟩ := h
    refine ⟨id, by simp, fun _ => rfl, fun _ => rfl, fun _ => rfl, fun entry _ => ?_⟩
    simp only [relocateThrough_identity, id_eq]
    exact (Option.bind_fun_some _).symm
  · refine ⟨Entry.applyEdit (.replaced 0 offset oldLength newLength), rfl,
      fun entry => (Entry.applyEdit_keeps _ entry).1, fun entry => (Entry.applyEdit_keeps _ entry).2.1,
      fun entry => (Entry.applyEdit_keeps _ entry).2.2, fun entry hocc => ?_⟩
    · unfold Entry.applyEdit Entry.resolved
      cases halive : entry.alive with
      | false => simp [hocc, halive]
      | true =>
          rw [if_pos rfl, Option.bind_some, relocateThrough_replaced _ g 0]
          cases hrel : relocateThrough entry.offset (.replaced 0 offset oldLength newLength)
              entry.policy with
          | none => simp [hocc]
          | some o => simp [hocc]

theorem relocates_applyBarrier (anchors : AnchorSet) (g : Nat) :
    ∃ f, Relocates (.barrierAt g) anchors anchors.applyBarrier f :=
  ⟨fun entry => { entry with alive := false }, rfl, fun _ => rfl, fun _ => rfl, fun _ => rfl,
    fun entry _ => by simp [Entry.resolved]⟩

theorem Relocates.find {op : EditOp} {anchors anchors' : AnchorSet} {f : Entry → Entry}
    (h : Relocates op anchors anchors' f) (id : AnchorId) :
    anchors'.find id = (anchors.find id).map f := by
  obtain ⟨rfl, hocc, hver, -, -⟩ := h
  unfold AnchorSet.find
  split
  · rfl
  · rw [List.getElem?_map]
    cases anchors.entries[id.index]? with
    | none => rfl
    | some entry =>
        simp only [Option.map_some, hocc, hver]
        split <;> rfl

theorem Relocates.freeSlots {op : EditOp} {anchors anchors' : AnchorSet} {f : Entry → Entry}
    (h : Relocates op anchors anchors' f) (hfree : anchors.FreeSlots) : anchors'.FreeSlots := by
  obtain ⟨rfl, hocc, -, -, -⟩ := h
  refine ⟨hfree.nodup, fun i hi => ?_⟩
  obtain ⟨entry, hentry, hunoccupied⟩ := hfree.free i hi
  refine ⟨f entry, ?_, (hocc entry).trans hunoccupied⟩
  rw [List.getElem?_map, hentry, Option.map_some]

theorem Relocates.wellFormed {op : EditOp} {anchors anchors' : AnchorSet} {f : Entry → Entry}
    {created : Nat} (h : Relocates op anchors anchors' f) (hwf : anchors.WellFormed created) :
    anchors'.WellFormed created := by
  obtain ⟨hnodup, hfree⟩ := h.freeSlots hwf.freeSlots
  obtain ⟨rfl, -, hver, -, -⟩ := h
  refine ⟨hwf.bound, ?_, hwf.nextVersion, fun entry hentry => ?_, hnodup, hfree⟩
  · rw [List.length_map]
    exact hwf.length_le
  · obtain ⟨entry, hmem, rfl⟩ := List.mem_map.1 hentry
    rw [hver]
    exact hwf.version_le entry hmem

/-! ### Creating and destroying -/

theorem create_of_free {anchors : AnchorSet} {index : Nat}
    (h : anchors.freeSlots.getLast? = some index) (o : Nat) (p : AnchorPolicy) :
    anchors.create o p = ({ index := index, version := anchors.nextVersion },
      { entries := anchors.entries.set index
          { offset := o, policy := p, version := anchors.nextVersion, occupied := true,
            alive := true }
        freeSlots := anchors.freeSlots.dropLast
        nextVersion := bumpVersion anchors.nextVersion }) := by
  simp only [create, h]

theorem create_of_full {anchors : AnchorSet} (h : anchors.freeSlots.getLast? = none) (o : Nat)
    (p : AnchorPolicy) :
    anchors.create o p =
      ({ index := anchors.entries.length % 2 ^ 32, version := anchors.nextVersion },
        { entries := anchors.entries ++
            [{ offset := o, policy := p, version := anchors.nextVersion, occupied := true,
               alive := true }]
          freeSlots := anchors.freeSlots
          nextVersion := bumpVersion anchors.nextVersion }) := by
  simp only [create, h]

theorem FreeSlots.getLast {anchors : AnchorSet} {index : Nat} (h : anchors.FreeSlots)
    (hlast : anchors.freeSlots.getLast? = some index) :
    anchors.freeSlots.dropLast.Nodup ∧ index ∉ anchors.freeSlots.dropLast := by
  obtain ⟨rest, hrest⟩ := List.getLast?_eq_some_iff.1 hlast
  have hnodup := h.nodup
  rw [hrest, List.nodup_append] at hnodup
  rw [hrest, List.dropLast_concat]
  exact ⟨hnodup.1, fun hin => hnodup.2.2 index hin index (List.mem_singleton.2 rfl) rfl⟩

theorem FreeSlots.create {anchors : AnchorSet} (h : anchors.FreeSlots) (o : Nat)
    (p : AnchorPolicy) : (anchors.create o p).2.FreeSlots := by
  cases hlast : anchors.freeSlots.getLast? with
  | some index =>
      obtain ⟨hnodup, hnot⟩ := h.getLast hlast
      rw [create_of_free hlast]
      refine ⟨hnodup, fun i hi => ?_⟩
      obtain ⟨entry, hentry, hocc⟩ := h.free i (List.dropLast_subset _ hi)
      refine ⟨entry, ?_, hocc⟩
      rw [List.getElem?_set_ne, hentry]
      rintro rfl
      exact hnot hi
  | none =>
      rw [create_of_full hlast]
      refine ⟨h.nodup, fun i hi => ?_⟩
      obtain ⟨entry, hentry, hocc⟩ := h.free i hi
      refine ⟨entry, ?_, hocc⟩
      rw [List.getElem?_append_left (List.getElem?_eq_some_iff.1 hentry).1, hentry]

theorem FreeSlots.getElem?_create {anchors : AnchorSet} {i : Nat} {entry : Entry}
    (h : anchors.FreeSlots) (hentry : anchors.entries[i]? = some entry)
    (hocc : entry.occupied = true) (o : Nat) (p : AnchorPolicy) :
    (anchors.create o p).2.entries[i]? = some entry := by
  cases hlast : anchors.freeSlots.getLast? with
  | some index =>
      obtain ⟨old, hold, hfree⟩ := h.free index (List.mem_of_getLast? hlast)
      rw [create_of_free hlast]
      have hne : index ≠ i := by
        rintro rfl
        obtain rfl := Option.some.inj (hold.symm.trans hentry)
        rw [hocc] at hfree
        cases hfree
      exact (List.getElem?_set_ne hne).trans hentry
  | none =>
      rw [create_of_full hlast]
      exact (List.getElem?_append_left (List.getElem?_eq_some_iff.1 hentry).1).trans hentry

theorem FreeSlots.find_create {anchors : AnchorSet} {id : AnchorId} {entry : Entry}
    (h : anchors.FreeSlots) (hfind : anchors.find id = some entry) (o : Nat) (p : AnchorPolicy) :
    (anchors.create o p).2.find id = some entry := by
  obtain ⟨hversion, hentry, hocc, hver⟩ := find_eq_some.1 hfind
  exact find_eq_some.2 ⟨hversion, h.getElem?_create hentry hocc o p, hocc, hver⟩

theorem WellFormed.create {anchors anchors' : AnchorSet} {created : Nat} {id : AnchorId} {o : Nat}
    {p : AnchorPolicy} (hwf : anchors.WellFormed created) (hbound : created + 1 < 2 ^ 32)
    (h : anchors.create o p = (id, anchors')) :
    anchors'.WellFormed (created + 1) ∧ id.version = created + 1 ∧
      anchors'.entries[id.index]? = some
        { offset := o, policy := p, version := created + 1, occupied := true, alive := true } ∧
      ∀ i, i ≠ id.index → anchors'.entries[i]? = anchors.entries[i]? := by
  have hversion : anchors.nextVersion = created + 1 := by
    rw [hwf.nextVersion, bumpVersion_eq hbound]
  have hslots := hwf.freeSlots.create o p
  rw [h] at hslots
  cases hlast : anchors.freeSlots.getLast? with
  | some index =>
      rw [create_of_free hlast, hversion, Prod.mk.injEq] at h
      obtain ⟨rfl, rfl⟩ := h
      obtain ⟨old, hold, -⟩ := hwf.free index (List.mem_of_getLast? hlast)
      have hlt : index < anchors.entries.length := (List.getElem?_eq_some_iff.1 hold).1
      refine ⟨⟨hbound, ?_, rfl, fun entry hentry => ?_, hslots.nodup, hslots.free⟩, rfl,
        List.getElem?_set_self hlt, fun i hi => List.getElem?_set_ne (Ne.symm hi)⟩
      · rw [List.length_set]
        exact Nat.le_succ_of_le hwf.length_le
      · rcases List.mem_or_eq_of_mem_set hentry with hentry | rfl
        · exact Nat.le_succ_of_le (hwf.version_le entry hentry)
        · exact Nat.le_refl _
  | none =>
      have hlen : anchors.entries.length % 2 ^ 32 = anchors.entries.length :=
        Nat.mod_eq_of_lt (Nat.lt_of_le_of_lt hwf.length_le hwf.bound)
      rw [create_of_full hlast, hversion, hlen, Prod.mk.injEq] at h
      obtain ⟨rfl, rfl⟩ := h
      refine ⟨⟨hbound, ?_, rfl, fun entry hentry => ?_, hslots.nodup, hslots.free⟩, rfl, ?_,
        fun i hi => ?_⟩
      · rw [List.length_append]
        exact Nat.succ_le_succ hwf.length_le
      · rcases List.mem_append.1 hentry with hentry | hentry
        · exact Nat.le_succ_of_le (hwf.version_le entry hentry)
        · obtain rfl := List.mem_singleton.1 hentry
          exact Nat.le_refl _
      · simp
      · rw [List.getElem?_append]
        split
        · rfl
        · rename_i hge
          have hge' := Nat.lt_of_le_of_ne (Nat.le_of_not_lt hge) (Ne.symm hi)
          rw [List.getElem?_eq_none (by simpa using by omega), List.getElem?_eq_none (by omega)]

theorem FreeSlots.destroy {anchors : AnchorSet} (h : anchors.FreeSlots) (id : AnchorId) :
    (anchors.destroy id).FreeSlots := by
  unfold AnchorSet.destroy
  split
  · exact h
  · rename_i old hfind
    obtain ⟨-, hold, hocc, -⟩ := find_eq_some.1 hfind
    have hlt : id.index < anchors.entries.length := (List.getElem?_eq_some_iff.1 hold).1
    have hnot : id.index ∉ anchors.freeSlots := by
      intro hmem
      obtain ⟨entry, hentry, hfree⟩ := h.free _ hmem
      obtain rfl : old = entry := Option.some.inj (hold.symm.trans hentry)
      rw [hocc] at hfree
      cases hfree
    refine ⟨?_, fun i hi => ?_⟩
    · refine List.nodup_append.2 ⟨h.nodup, by simp, ?_⟩
      rintro i hi j hj rfl
      exact hnot (List.mem_singleton.1 hj ▸ hi)
    · by_cases hi' : i = id.index
      · subst hi'
        exact ⟨_, List.getElem?_set_self hlt, rfl⟩
      · rcases List.mem_append.1 hi with hi | hi
        · obtain ⟨entry, hentry, hfree⟩ := h.free i hi
          exact ⟨entry, by rw [List.getElem?_set_ne (Ne.symm hi'), hentry], hfree⟩
        · exact absurd (List.mem_singleton.1 hi) hi'

theorem find_destroy {anchors : AnchorSet} {id id' : AnchorId} {entry : Entry} (hne : id' ≠ id)
    (hfind : anchors.find id = some entry) : (anchors.destroy id').find id = some entry := by
  unfold AnchorSet.destroy
  split
  · exact hfind
  · rename_i old hold
    obtain ⟨hversion, hentry, hocc, hver⟩ := find_eq_some.1 hfind
    obtain ⟨-, hold, -, holdver⟩ := find_eq_some.1 hold
    have hindex : id'.index ≠ id.index := by
      intro heq
      rw [heq, hentry] at hold
      obtain rfl := Option.some.inj hold
      apply hne
      cases id
      cases id'
      simp_all
    exact find_eq_some.2 ⟨hversion, (List.getElem?_set_ne hindex).trans hentry, hocc, hver⟩

theorem WellFormed.destroy {anchors : AnchorSet} {created : Nat} (hwf : anchors.WellFormed created)
    (id : AnchorId) : (anchors.destroy id).WellFormed created := by
  have hslots := hwf.freeSlots.destroy id
  unfold AnchorSet.destroy at hslots ⊢
  cases hfind : anchors.find id with
  | none => exact hwf
  | some old =>
      rw [hfind] at hslots
      refine ⟨hwf.bound, ?_, hwf.nextVersion, fun entry hentry => ?_, hslots.nodup, hslots.free⟩
      · rw [List.length_set]
        exact hwf.length_le
      · rcases List.mem_or_eq_of_mem_set hentry with hentry | rfl
        · exact hwf.version_le entry hentry
        · exact Nat.zero_le _

/-! ### One handle -/

/-- The handle names an entry with the given policy that resolves to the given offset. -/
def Carries (anchors : AnchorSet) (id : AnchorId) (p : AnchorPolicy) (expected : Option Nat) : Prop :=
  ∃ entry, anchors.find id = some entry ∧ entry.policy = p ∧ entry.resolved = expected

/-- The handle names nothing, and no entry still to come will have its version. -/
def Gone (anchors : AnchorSet) (id : AnchorId) (created : Nat) : Prop :=
  anchors.find id = none ∧ id.version ≤ created

section Handles

variable {anchors anchors' : AnchorSet} {created o : Nat} {id id' : AnchorId} {op : EditOp}
  {p q : AnchorPolicy} {expected : Option Nat} {f : Entry → Entry}

theorem Carries.offset (h : Carries anchors id p expected) : anchors.offset id = expected := by
  obtain ⟨entry, hfind, -, hresolved⟩ := h
  rw [offset_eq, hfind, Option.bind_some, hresolved]

theorem Gone.offset (h : Gone anchors id created) : anchors.offset id = none := by
  rw [offset_eq, h.1, Option.bind_none]

theorem Relocates.carries (h : Relocates op anchors anchors' f) (hc : Carries anchors id p expected) :
    Carries anchors' id p (expected.bind fun o => relocateThrough o op p) := by
  obtain ⟨entry, hfind, hpolicy, hresolved⟩ := hc
  obtain ⟨-, -, hocc, -⟩ := find_eq_some.1 hfind
  refine ⟨f entry, by rw [h.find, hfind, Option.map_some], (h.policy entry).trans hpolicy, ?_⟩
  rw [h.resolved entry hocc, hresolved, hpolicy]

theorem Relocates.gone (h : Relocates op anchors anchors' f) (hg : Gone anchors id created) :
    Gone anchors' id created :=
  ⟨by rw [h.find, hg.1, Option.map_none], hg.2⟩

theorem WellFormed.create_carries (hwf : anchors.WellFormed created)
    (hbound : created + 1 < 2 ^ 32) (h : anchors.create o p = (id, anchors')) :
    Carries anchors' id p (some o) := by
  obtain ⟨-, hversion, hentry, -⟩ := hwf.create hbound h
  refine ⟨_, find_eq_some.2 ⟨?_, hentry, rfl, hversion.symm⟩, rfl, rfl⟩
  rw [hversion]
  exact Nat.succ_ne_zero _

theorem Carries.create (hfree : anchors.FreeSlots) (h : anchors.create o q = (id', anchors'))
    (hc : Carries anchors id p expected) : Carries anchors' id p expected := by
  obtain ⟨entry, hfind, hpolicy, hresolved⟩ := hc
  have hfind := hfree.find_create hfind o q
  rw [h] at hfind
  exact ⟨entry, hfind, hpolicy, hresolved⟩

theorem Gone.create (hwf : anchors.WellFormed created) (hbound : created + 1 < 2 ^ 32)
    (h : anchors.create o q = (id', anchors')) (hg : Gone anchors id created) :
    Gone anchors' id (created + 1) := by
  obtain ⟨-, -, hnew, hrest⟩ := hwf.create hbound h
  refine ⟨Option.eq_none_iff_forall_ne_some.2 fun entry hfind => ?_, Nat.le_succ_of_le hg.2⟩
  obtain ⟨hversion, hentry, hocc, hver⟩ := find_eq_some.1 hfind
  by_cases heq : id.index = id'.index
  · rw [heq, hnew] at hentry
    obtain rfl := Option.some.inj hentry
    exact absurd hg.2 (by simp only at hver; omega)
  · rw [hrest _ heq] at hentry
    have hfind := find_eq_some.2 ⟨hversion, hentry, hocc, hver⟩
    rw [hg.1] at hfind
    cases hfind

theorem Carries.destroy (hne : id' ≠ id) (hc : Carries anchors id p expected) :
    Carries (anchors.destroy id') id p expected := by
  obtain ⟨entry, hfind, hpolicy, hresolved⟩ := hc
  exact ⟨entry, find_destroy hne hfind, hpolicy, hresolved⟩

theorem Gone.destroy (hg : Gone anchors id created) : Gone (anchors.destroy id') id created := by
  refine ⟨Option.eq_none_iff_forall_ne_some.2 fun entry hfind => ?_, hg.2⟩
  unfold AnchorSet.destroy at hfind
  split at hfind
  · rw [hg.1] at hfind
    cases hfind
  · obtain ⟨hversion, hentry, hocc, hver⟩ := find_eq_some.1 hfind
    by_cases hindex : id'.index = id.index
    · rw [hindex, List.getElem?_set] at hentry
      split at hentry
      · split at hentry
        · cases hentry
          cases hocc
        · cases hentry
      · contradiction
    · rw [List.getElem?_set_ne hindex] at hentry
      have hfind := find_eq_some.2 ⟨hversion, hentry, hocc, hver⟩
      rw [hg.1] at hfind
      cases hfind

theorem Carries.destroy_self (hwf : anchors.WellFormed created) (hc : Carries anchors id p expected) :
    Gone (anchors.destroy id) id created := by
  obtain ⟨entry, hfind, -, -⟩ := hc
  obtain ⟨-, hentry, -, hver⟩ := find_eq_some.1 hfind
  refine ⟨Option.eq_none_iff_forall_ne_some.2 fun entry' hfind' => ?_,
    hver ▸ hwf.version_le entry (List.mem_of_getElem? hentry)⟩
  rw [AnchorSet.destroy, hfind] at hfind'
  obtain ⟨-, hentry', hocc, -⟩ := find_eq_some.1 hfind'
  rw [List.getElem?_set_self (List.getElem?_eq_some_iff.1 hentry).1] at hentry'
  cases hentry'
  cases hocc

end Handles

end AnchorSet

/-! ## Both together -/

namespace Tracking

open AnchorSet

/-- The tracking after `created` anchors, with everything ever committed. -/
structure Follows (t : Tracking) (created : Nat) (history : List EditOp) : Prop where
  generation : t.contentGeneration = history.length
  records : t.edits.Records history
  wellFormed : t.anchors.WellFormed created

theorem follows_initial : Follows .initial 0 [] :=
  ⟨rfl, EditJournal.records_empty, wellFormed_empty⟩

/-- The anchor holds its offset carried through everything committed since generation `g`. -/
def Anchored (t : Tracking) (history : List EditOp) (id : AnchorId) (o g : Nat)
    (p : AnchorPolicy) : Prop :=
  g ≤ history.length ∧ t.anchors.Carries id p (relocateThroughAll o (history.drop g) p)

variable {t t' : Tracking} {created : Nat} {history : List EditOp}

theorem commit_spec (t : Tracking) (c : Commit) :
    (t.commit c).contentGeneration = t.contentGeneration + 1 ∧
      (t.commit c).edits = t.edits.record (c.op (t.contentGeneration + 1)) ∧
      ∃ f, Relocates (c.op (t.contentGeneration + 1)) t.anchors (t.commit c).anchors f := by
  cases c with
  | replace offset oldLength newLength => exact ⟨rfl, rfl, relocates_applyEdit _ _ _ _ _⟩
  | barrier => exact ⟨rfl, rfl, relocates_applyBarrier _ _⟩

theorem Commit.op_generation (c : Commit) (g : Nat) : (c.op g).generation = g := by
  cases c <;> rfl

theorem Follows.commit (h : Follows t created history) (c : Commit) :
    Follows (t.commit c) created (history ++ [c.op (history.length + 1)]) := by
  obtain ⟨hgen, hedits, f, hrel⟩ := commit_spec t c
  rw [h.generation] at hgen hedits hrel
  refine ⟨by rw [hgen, List.length_append, List.length_singleton], ?_, hrel.wellFormed h.wellFormed⟩
  rw [hedits]
  exact h.records.record (c.op_generation _)

theorem Anchored.commit {id : AnchorId} {o g : Nat} {p : AnchorPolicy} (hf : Follows t created history)
    (h : Anchored t history id o g p) (c : Commit) :
    Anchored (t.commit c) (history ++ [c.op (history.length + 1)]) id o g p := by
  obtain ⟨-, -, f, hrel⟩ := commit_spec t c
  rw [hf.generation] at hrel
  refine ⟨by rw [List.length_append]; exact Nat.le_add_right_of_le h.1, ?_⟩
  rw [List.drop_append_of_le_length h.1, relocateThroughAll_snoc]
  exact hrel.carries h.2

theorem Follows.create {o : Nat} {p : AnchorPolicy} (h : Follows t created history)
    (hbound : created + 1 < 2 ^ 32) : Follows (t.createAnchor o p).2 (created + 1) history :=
  ⟨h.generation, h.records, (h.wellFormed.create hbound rfl).1⟩

theorem Follows.destroy (h : Follows t created history) (id : AnchorId) :
    Follows (t.destroyAnchor id) created history :=
  ⟨h.generation, h.records, h.wellFormed.destroy id⟩

theorem Anchored.offset_eq {id : AnchorId} {o g : Nat} {p : AnchorPolicy}
    (hf : Follows t created history) (h : Anchored t history id o g p)
    (hg : t.edits.oldestReachableGeneration ≤ g) : t.anchorOffset id = t.edits.relocate o g p := by
  rw [hf.records.relocate hg]
  exact h.2.offset

end Tracking

end Ned.Text
