import Mathlib.Order.Lattice
import Mathlib.Data.List.Infix
import Mathlib.Data.List.Nodup

/-!
# Tries

A map from sequences of keys to values, kept as a tree with a value at every node that has one. The
children of a node are in the order of their keys. Taking a value away leaves the node.
-/

namespace Ned.Library

variable {κ β : Type}

/-! ## Children in the order of their keys -/

/-- Adds an entry before those of greater keys, or replaces the one of the same key. -/
def place [LinearOrder κ] : List (κ × β) → κ → β → List (κ × β)
  | [], key, value => [(key, value)]
  | entry :: entries, key, value =>
      if key < entry.1 then (key, value) :: entry :: entries
      else if key = entry.1 then (key, value) :: entries
      else entry :: place entries key value

/-- The keys ascend, so that no key has two entries. -/
def Ascending [LT κ] (entries : List (κ × β)) : Prop := entries.Pairwise fun e e' => e.1 < e'.1

section Place

variable [LinearOrder κ] {key key' : κ} {value value' : β} {entries : List (κ × β)}

theorem lookup_place_self : (place entries key value).lookup key = some value := by
  induction entries with
  | nil => simp [place]
  | cons e entries ih =>
      obtain ⟨k, v⟩ := e
      simp only [place]
      split
      · simp
      · split
        · simp
        · rename_i hne
          rw [List.lookup_cons, beq_false_of_ne hne]
          exact ih

theorem lookup_place_of_ne (hne : key' ≠ key) :
    (place entries key value).lookup key' = entries.lookup key' := by
  induction entries with
  | nil => simp [place, hne]
  | cons e entries ih =>
      obtain ⟨k, v⟩ := e
      simp only [place]
      split
      · rw [List.lookup_cons, beq_false_of_ne hne]
      · split
        · rename_i heq
          simp only [List.lookup_cons, ← heq, beq_false_of_ne hne]
        · simp only [List.lookup_cons, ih]

theorem mem_place {e : κ × β} (h : e ∈ place entries key value) : e = (key, value) ∨ e ∈ entries := by
  induction entries with
  | nil => simpa [place] using h
  | cons e' entries ih =>
      rw [place] at h
      split at h
      · simpa using h
      · split at h
        · rcases List.mem_cons.1 h with rfl | h
          · exact .inl rfl
          · exact .inr (List.mem_cons_of_mem _ h)
        · rcases List.mem_cons.1 h with rfl | h
          · exact .inr List.mem_cons_self
          · exact (ih h).imp id (List.mem_cons_of_mem _)

theorem Ascending.place (h : Ascending entries) : Ascending (place entries key value) := by
  induction entries with
  | nil => exact List.pairwise_singleton _ _
  | cons e entries ih =>
      obtain ⟨he, hentries⟩ := List.pairwise_cons.1 h
      rw [Library.place]
      split
      · rename_i hlt
        apply List.pairwise_cons.2 ⟨_, h⟩
        intro e' he'
        rcases List.mem_cons.1 he' with rfl | he'
        · exact hlt
        · exact hlt.trans (he e' he')
      · rename_i hnlt
        split
        · rename_i heq
          apply List.pairwise_cons.2 ⟨_, hentries⟩
          intro e' he'
          exact heq ▸ he e' he'
        · rename_i hne
          apply List.pairwise_cons.2 ⟨_, ih hentries⟩
          intro e' he'
          rcases mem_place he' with rfl | he'
          · exact lt_of_le_of_ne (not_lt.1 hnlt) (Ne.symm hne)
          · exact he e' he'

/-- In ascending entries, the entry of a key is the one found. -/
theorem Ascending.lookup_iff (h : Ascending entries) :
    entries.lookup key = some value ↔ (key, value) ∈ entries := by
  induction entries with
  | nil => simp
  | cons e entries ih =>
      obtain ⟨he, hentries⟩ := List.pairwise_cons.1 h
      obtain ⟨k, v⟩ := e
      rw [List.lookup_cons, List.mem_cons, Prod.mk.injEq]
      by_cases hk : key = k
      · subst hk
        have hnone : (key, value) ∉ entries := fun hmem => lt_irrefl key (he _ hmem)
        simp [hnone, eq_comm]
      · rw [beq_false_of_ne hk]
        simp [hk, ih hentries]

theorem Ascending.nodup (h : Ascending entries) : (entries.map (·.1)).Nodup :=
  List.pairwise_map.2 (h.imp ne_of_lt)

end Place

/-! ## The tree -/

/-- A node: the value of the sequence leading to it, if it has one, and its children. -/
inductive Trie (κ β : Type) : Type where
  | node (value : Option β) (children : List (κ × Trie κ β))

namespace Trie

/-- The value at the root. -/
def value : Trie κ β → Option β
  | node value _ => value

/-- The children of the root. -/
def children : Trie κ β → List (κ × Trie κ β)
  | node _ children => children

@[simp] theorem value_node (v : Option β) (cs : List (κ × Trie κ β)) : (node v cs).value = v := rfl

@[simp] theorem children_node (v : Option β) (cs : List (κ × Trie κ β)) :
    (node v cs).children = cs := rfl

/-- A node without value or children. -/
def empty : Trie κ β := node none []

variable [LinearOrder κ]

/-- The node at the end of a sequence. -/
def descend (t : Trie κ β) : List κ → Option (Trie κ β)
  | [] => some t
  | key :: keys => (t.children.lookup key).bind fun child => child.descend keys

/-- Gives a sequence a value, with new nodes as needed. -/
def insert (t : Trie κ β) (value : β) : List κ → Trie κ β
  | [] => node (some value) t.children
  | key :: keys =>
      node t.value (place t.children key (((t.children.lookup key).getD empty).insert value keys))

/-- Takes the value of a sequence away, if it has a node. -/
def clear (t : Trie κ β) : List κ → Trie κ β
  | [] => node none t.children
  | key :: keys =>
      match t.children.lookup key with
      | some child => node t.value (place t.children key (child.clear keys))
      | none => t

mutual

/-- The sequences that have a value, below a sequence of keys already taken. -/
def entries (taken : List κ) : Trie κ β → List (List κ × β)
  | node value children => (value.map fun v => (taken, v)).toList ++ entriesOf taken children

/-- Those below the children of a node. -/
def entriesOf (taken : List κ) : List (κ × Trie κ β) → List (List κ × β)
  | [] => []
  | (key, child) :: rest => entries (taken ++ [key]) child ++ entriesOf taken rest

end

/-- The children of every node ascend. -/
inductive Sorted : Trie κ β → Prop where
  | node {value : Option β} {children : List (κ × Trie κ β)} (ascending : Ascending children)
      (below : ∀ entry ∈ children, Sorted entry.2) : Sorted (node value children)

/-- The value of a sequence. -/
def get (t : Trie κ β) (keys : List κ) : Option β := (t.descend keys).bind value

/-- Whether a sequence has a node. -/
def Reaches (t : Trie κ β) (keys : List κ) : Prop := (t.descend keys).isSome

variable {t child : Trie κ β} {key : κ} {keys keys' taken : List κ} {value v : β}

@[simp] theorem descend_nil : t.descend [] = some t := rfl

theorem descend_cons :
    t.descend (key :: keys) = (t.children.lookup key).bind fun child => child.descend keys := rfl

@[simp] theorem descend_empty_cons : (empty : Trie κ β).descend (key :: keys) = none := rfl

theorem descend_append :
    t.descend (keys ++ keys') = (t.descend keys).bind fun child => child.descend keys' := by
  induction keys generalizing t with
  | nil => rfl
  | cons key keys ih =>
      rw [List.cons_append, descend_cons, descend_cons]
      cases t.children.lookup key with
      | none => rfl
      | some child => exact ih

theorem get_nil : t.get [] = t.value := rfl

theorem get_cons : t.get (key :: keys) = (t.children.lookup key).bind fun child => child.get keys := by
  rw [get, descend_cons]
  cases t.children.lookup key <;> rfl

theorem get_empty : (empty : Trie κ β).get keys = none := by
  cases keys <;> rfl

theorem reaches_nil : t.Reaches [] := rfl

theorem reaches_cons :
    t.Reaches (key :: keys) ↔ ∃ child, t.children.lookup key = some child ∧ child.Reaches keys := by
  rw [Reaches, descend_cons]
  cases t.children.lookup key <;> simp [Reaches]

theorem not_reaches_empty_cons : ¬(empty : Trie κ β).Reaches (key :: keys) := by
  simp [Reaches]

/-! ## Giving a value and taking it away -/

theorem children_insert_cons : (t.insert value (key :: keys)).children =
    place t.children key (((t.children.lookup key).getD empty).insert value keys) := rfl

theorem get_insert_self : (t.insert value keys).get keys = some value := by
  induction keys generalizing t with
  | nil => rfl
  | cons key keys ih =>
      rw [get_cons, children_insert_cons, lookup_place_self]
      exact ih

theorem get_insert_of_ne (hne : keys' ≠ keys) : (t.insert value keys).get keys' = t.get keys' := by
  induction keys generalizing t keys' with
  | nil =>
      cases keys' with
      | nil => exact absurd rfl hne
      | cons key' keys' => rfl
  | cons key keys ih =>
      cases keys' with
      | nil => rfl
      | cons key' keys' =>
          rw [get_cons, get_cons, children_insert_cons]
          by_cases hkey : key' = key
          · subst hkey
            have hne : keys' ≠ keys := fun h => hne (h ▸ rfl)
            rw [lookup_place_self, Option.bind_some, ih hne]
            cases t.children.lookup key' with
            | none => exact get_empty
            | some child => rfl
          · rw [lookup_place_of_ne hkey]

theorem get_clear_self : (t.clear keys).get keys = none := by
  induction keys generalizing t with
  | nil => rfl
  | cons key keys ih =>
      rw [clear]
      split
      · rw [get_cons, children_node, lookup_place_self]
        exact ih
      · rename_i h
        rw [get_cons, h]
        rfl

theorem get_clear_of_ne (hne : keys' ≠ keys) : (t.clear keys).get keys' = t.get keys' := by
  induction keys generalizing t keys' with
  | nil =>
      cases keys' with
      | nil => exact absurd rfl hne
      | cons key' keys' => rfl
  | cons key keys ih =>
      rw [clear]
      split
      · rename_i child h
        cases keys' with
        | nil => rfl
        | cons key' keys' =>
            rw [get_cons, get_cons, children_node]
            by_cases hkey : key' = key
            · subst hkey
              have hne : keys' ≠ keys := fun h => hne (h ▸ rfl)
              rw [lookup_place_self, h, Option.bind_some, Option.bind_some, ih hne]
            · rw [lookup_place_of_ne hkey]
      · rfl

/-- New nodes are made along the sequence, and nowhere else. -/
theorem reaches_insert : (t.insert value keys).Reaches keys' ↔ t.Reaches keys' ∨ keys' <+: keys := by
  induction keys generalizing t keys' with
  | nil =>
      cases keys' with
      | nil => simp [reaches_nil]
      | cons key' keys' =>
          have h : (t.insert value []).Reaches (key' :: keys') ↔ t.Reaches (key' :: keys') := Iff.rfl
          simp [h]
  | cons key keys ih =>
      cases keys' with
      | nil => simp [reaches_nil]
      | cons key' keys' =>
          rw [reaches_cons, reaches_cons, children_insert_cons, List.cons_prefix_cons]
          by_cases hkey : key' = key
          · subst hkey
            rw [lookup_place_self]
            cases t.children.lookup key' with
            | none =>
                cases keys' with
                | nil => simp [reaches_nil]
                | cons key keys' => simp [ih, not_reaches_empty_cons]
            | some child => simp [ih]
          · simp [lookup_place_of_ne hkey, hkey]

/-- No node is removed. -/
theorem reaches_clear : (t.clear keys).Reaches keys' ↔ t.Reaches keys' := by
  induction keys generalizing t keys' with
  | nil => cases keys' <;> exact Iff.rfl
  | cons key keys ih =>
      rw [clear]
      split
      · rename_i child h
        cases keys' with
        | nil => exact Iff.rfl
        | cons key' keys' =>
            rw [reaches_cons, reaches_cons, children_node]
            by_cases hkey : key' = key
            · subst hkey
              simp [lookup_place_self, h, ih]
            · rw [lookup_place_of_ne hkey]
      · rfl

theorem reaches_of_prefix (h : t.Reaches keys) (hinitial : keys' <+: keys) : t.Reaches keys' := by
  obtain ⟨rest, rfl⟩ := hinitial
  rw [Reaches, descend_append] at h
  rw [Reaches]
  cases hd : t.descend keys' with
  | none => simp [hd] at h
  | some child => rfl

theorem reaches_of_get (h : t.get keys = some value) : t.Reaches keys := by
  rw [get, Option.bind_eq_some_iff] at h
  obtain ⟨child, hchild, -⟩ := h
  rw [Reaches, hchild]
  rfl

/-! ## The order of the children -/

theorem sorted_empty : (empty : Trie κ β).Sorted := .node .nil (by simp)

namespace Sorted

theorem ascending (h : t.Sorted) : Ascending t.children := by
  cases h with
  | node ascending below => exact ascending

theorem of_mem (h : t.Sorted) : ∀ entry ∈ t.children, entry.2.Sorted := by
  cases h with
  | node ascending below => exact below

theorem of_lookup (h : t.Sorted) (hchild : t.children.lookup key = some child) : child.Sorted :=
  h.of_mem _ (h.ascending.lookup_iff.1 hchild)

theorem place (h : t.Sorted) (hchild : child.Sorted) (value : Option β) :
    (Trie.node value (place t.children key child)).Sorted := by
  apply Sorted.node h.ascending.place
  intro entry hentry
  rcases mem_place hentry with rfl | hentry
  · exact hchild
  · exact h.of_mem _ hentry

theorem insert (h : t.Sorted) : (t.insert value keys).Sorted := by
  induction keys generalizing t with
  | nil => exact .node h.ascending h.of_mem
  | cons key keys ih =>
      apply h.place
      apply ih
      cases hchild : t.children.lookup key with
      | none => exact sorted_empty
      | some child => exact h.of_lookup hchild

theorem clear (h : t.Sorted) : (t.clear keys).Sorted := by
  induction keys generalizing t with
  | nil => exact .node h.ascending h.of_mem
  | cons key keys ih =>
      rw [Trie.clear]
      split
      · rename_i child hchild
        exact h.place (ih (h.of_lookup hchild)) _
      · exact h

theorem descend (h : t.Sorted) (hdescend : t.descend keys = some child) : child.Sorted := by
  induction keys generalizing t with
  | nil => exact (Option.some.inj hdescend) ▸ h
  | cons key keys ih =>
      rw [descend_cons, Option.bind_eq_some_iff] at hdescend
      obtain ⟨next, hnext, hdescend⟩ := hdescend
      exact ih (h.of_lookup hnext) hdescend

end Sorted

/-! ## Listing the entries -/

omit [LinearOrder κ] in
theorem entriesOf_eq (entries' : List (κ × Trie κ β)) :
    entriesOf taken entries' = entries'.flatMap fun e => entries (taken ++ [e.1]) e.2 := by
  induction entries' with
  | nil => rfl
  | cons e entries' ih =>
      obtain ⟨key, child⟩ := e
      rw [List.flatMap_cons, ← ih]
      rfl

omit [LinearOrder κ] in
theorem mem_entries_node {value : Option β} {children : List (κ × Trie κ β)} :
    (keys, v) ∈ entries taken (node value children) ↔
      (keys = taken ∧ value = some v) ∨
        ∃ e ∈ children, (keys, v) ∈ entries (taken ++ [e.1]) e.2 := by
  have h : entries taken (node value children) =
    (value.map fun v => (taken, v)).toList ++ entriesOf taken children := rfl
  rw [h, entriesOf_eq, List.mem_append, List.mem_flatMap]
  cases value <;> simp [eq_comm]

theorem mem_entries (h : t.Sorted) :
    (keys, v) ∈ entries taken t ↔ ∃ rest, keys = taken ++ rest ∧ t.get rest = some v := by
  induction h generalizing taken with
  | @node value children hascending hbelow ih =>
      rw [mem_entries_node]
      constructor
      · rintro (⟨rfl, rfl⟩ | ⟨⟨key, child⟩, he, hmem⟩)
        · exact ⟨[], (List.append_nil _).symm, rfl⟩
        · obtain ⟨rest, rfl, hrest⟩ := (ih _ he).1 hmem
          refine ⟨key :: rest, List.append_assoc _ _ _, ?_⟩
          rw [get_cons, children_node, hascending.lookup_iff.2 he]
          exact hrest
      · rintro ⟨rest, rfl, hrest⟩
        cases rest with
        | nil => exact .inl ⟨List.append_nil _, hrest⟩
        | cons key rest =>
            rw [get_cons, children_node, Option.bind_eq_some_iff] at hrest
            obtain ⟨child, hchild, hrest⟩ := hrest
            have he : (key, child) ∈ children := hascending.lookup_iff.1 hchild
            exact .inr ⟨_, he, (ih _ he).2 ⟨rest, by simp, hrest⟩⟩

theorem prefix_of_mem_entries (h : t.Sorted) {e : List κ × β} (he : e ∈ entries taken t) :
    taken <+: e.1 := by
  obtain ⟨keys, v⟩ := e
  obtain ⟨rest, hrest, -⟩ := (mem_entries h).1 he
  exact ⟨rest, hrest.symm⟩

/-- No sequence is listed twice. -/
theorem nodup_entries (h : t.Sorted) : ((entries taken t).map (·.1)).Nodup := by
  induction h generalizing taken with
  | @node value children hascending hbelow ih =>
      have heq : entries taken (node value children) =
        (value.map fun v => (taken, v)).toList ++ entriesOf taken children := rfl
      rw [heq, entriesOf_eq, List.map_append, List.map_flatMap, List.nodup_append, List.nodup_flatMap]
      refine ⟨?_, ⟨fun e he => ih e he, ?_⟩, ?_⟩
      · cases value <;> simp
      · apply hascending.imp_of_mem
        intro e e' he he' hlt
        apply List.disjoint_left.2
        intro keys hkeys hkeys'
        obtain ⟨x, hx, rfl⟩ := List.mem_map.1 hkeys
        obtain ⟨y, hy, heq⟩ := List.mem_map.1 hkeys'
        -- the two sequences go on with different keys after those taken
        have h1 : taken ++ [e.1] <+: x.1 := prefix_of_mem_entries (hbelow e he) hx
        have h2 : taken ++ [e'.1] <+: x.1 := heq ▸ prefix_of_mem_entries (hbelow e' he') hy
        have h3 := List.prefix_of_prefix_length_le h1 h2 (by simp)
        have h4 := (List.prefix_append_right_inj taken).1 h3
        exact hlt.ne (by simpa using h4)
      · intro keys hkeys keys' hkeys'
        obtain ⟨e, he, hmem⟩ := List.mem_flatMap.1 hkeys'
        obtain ⟨x, hx, rfl⟩ := List.mem_map.1 hmem
        have h1 : taken ++ [e.1] <+: x.1 := prefix_of_mem_entries (hbelow e he) hx
        have h2 : keys = taken := by
          cases value with
          | none => simp at hkeys
          | some v => simpa using hkeys
        intro heq
        have hle := h1.length_le
        rw [← heq, h2, List.length_append] at hle
        exact Nat.not_succ_le_self _ hle

end Trie

end Ned.Library
