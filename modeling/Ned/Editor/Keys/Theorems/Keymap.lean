import Ned.Editor.Keys.Keymap

/-!
# The lookups of a keymap

What the lookups say about the nodes and the values of the trie.
-/

namespace Ned.Editor.Keys

open Library

variable {keymap : Keymap} {layers : List Keymap} {sequence : List KeyChord} {commandName : String}
  {anyPrefix : Bool}

/-! ## One keymap -/

theorem resolve_eq_match_iff :
    keymap.resolve sequence = .Match commandName ↔ keymap.root.get sequence = some commandName := by
  rw [Keymap.resolve, Trie.get]
  cases keymap.root.descend sequence with
  | none => simp
  | some node =>
      cases hvalue : node.value with
      | none =>
          simp only [Option.bind_some, hvalue, reduceCtorEq, iff_false]
          split <;> simp
      | some name => simp [hvalue]

theorem children_isEmpty_iff {node : Trie KeyChord String} (h : keymap.root.descend sequence = some node) :
    node.children.isEmpty = false ↔ ∃ chord, keymap.root.Reaches (sequence ++ [chord]) := by
  simp only [Trie.Reaches, Trie.descend_append, h, Option.bind_some, Trie.descend_cons]
  cases node.children with
  | nil => simp
  | cons e children =>
      obtain ⟨chord, child⟩ := e
      simp only [List.isEmpty_cons, true_iff]
      exact ⟨chord, by simp⟩

theorem resolve_eq_prefix_iff : keymap.resolve sequence = .Prefix ↔
    keymap.root.get sequence = none ∧ ∃ chord, keymap.root.Reaches (sequence ++ [chord]) := by
  rw [Keymap.resolve, Trie.get]
  cases hnode : keymap.root.descend sequence with
  | none => simp [Trie.Reaches, Trie.descend_append, hnode]
  | some node =>
      rw [← children_isEmpty_iff hnode]
      cases hvalue : node.value with
      | none => cases hempty : node.children.isEmpty <;> simp [hvalue, hempty]
      | some name => simp [hvalue]

theorem mem_childrenAt_iff {child : ChildBinding} : child ∈ keymap.childrenAt sequence ↔
    child.commandName = keymap.root.get (sequence ++ [child.chord]) ∧
      keymap.root.Reaches (sequence ++ [child.chord]) := by
  obtain ⟨chord, commandName⟩ := child
  simp only [Keymap.childrenAt, Trie.Reaches, Trie.get, Trie.descend_append]
  cases hnode : keymap.root.descend sequence with
  | none => simp
  | some node =>
      have hsorted : Ascending node.children := (keymap.sorted.descend hnode).ascending
      simp only [List.mem_map, Prod.exists, ChildBinding.mk.injEq, Option.bind_some, Trie.descend_cons,
        ← hsorted.lookup_iff]
      cases hchild : node.children.lookup chord with
      | none =>
          simp only [Option.bind_none, Option.isSome_none, Bool.false_eq_true, and_false, iff_false]
          rintro ⟨chord', child, hlookup, rfl, -⟩
          simp [hchild] at hlookup
      | some child =>
          constructor
          · rintro ⟨chord', child', hlookup, rfl, rfl⟩
            rw [hchild] at hlookup
            cases hlookup
            exact ⟨rfl, rfl⟩
          · rintro ⟨rfl, -⟩
            exact ⟨chord, child, hchild, rfl, rfl⟩

theorem childrenAt_nodup : ((keymap.childrenAt sequence).map (·.chord)).Nodup := by
  rw [Keymap.childrenAt]
  split
  · exact List.nodup_nil
  · rename_i node hnode
    rw [List.map_map]
    exact (keymap.sorted.descend hnode).ascending.nodup

theorem mem_allBindings_iff {binding : Binding} : binding ∈ keymap.allBindings ↔
    binding.layer = 0 ∧ keymap.root.get binding.sequence = some binding.commandName := by
  obtain ⟨sequence, commandName, layer⟩ := binding
  simp only [Keymap.allBindings, List.mem_map, Prod.exists, Binding.mk.injEq,
    Trie.mem_entries keymap.sorted, List.nil_append]
  constructor
  · rintro ⟨_, _, ⟨_, rfl, hget⟩, rfl, rfl, rfl⟩
    exact ⟨rfl, hget⟩
  · rintro ⟨rfl, hget⟩
    exact ⟨sequence, commandName, ⟨sequence, rfl, hget⟩, rfl, rfl, rfl⟩

theorem allBindings_nodup : (keymap.allBindings.map (·.sequence)).Nodup := by
  rw [Keymap.allBindings, List.map_map]
  exact Trie.nodup_entries keymap.sorted

/-! ## Layers -/

theorem resolveIn_eq_match_iff : KeymapStack.resolveIn sequence anyPrefix layers = .Match commandName ↔
    layers.findSome? (fun layer => layer.root.get sequence) = some commandName := by
  induction layers generalizing anyPrefix with
  | nil => cases anyPrefix <;> simp [KeymapStack.resolveIn]
  | cons layer layers ih =>
      rw [KeymapStack.resolveIn, List.findSome?_cons]
      cases hget : layer.root.get sequence with
      | some name => simp [resolve_eq_match_iff.2 hget]
      | none =>
          split
          · rename_i name hlookup
            rw [resolve_eq_match_iff.1 hlookup] at hget
            cases hget
          · exact ih
          · exact ih

theorem resolveIn_eq_prefix_iff : KeymapStack.resolveIn sequence anyPrefix layers = .Prefix ↔
    (∀ layer ∈ layers, layer.root.get sequence = none) ∧
      (anyPrefix = true ∨ ∃ layer ∈ layers, layer.resolve sequence = .Prefix) := by
  induction layers generalizing anyPrefix with
  | nil => cases anyPrefix <;> simp [KeymapStack.resolveIn]
  | cons layer layers ih =>
      rw [KeymapStack.resolveIn]
      split
      · rename_i name hlookup
        simp [resolve_eq_match_iff.1 hlookup]
      · rename_i hlookup
        simp [ih, hlookup, (resolve_eq_prefix_iff.1 hlookup).1]
      · rename_i hlookup
        have hget : layer.root.get sequence = none := by
          apply Option.eq_none_iff_forall_ne_some.2
          intro name hget
          rw [resolve_eq_match_iff.2 hget] at hlookup
          cases hlookup
        simp [ih, hlookup, hget]

/-!
## A keymap is a finite map with prefixes

The calls of `bind` and `unbind` denote a map. Unbinding leaves nodes behind, so that the lookups agree
with the map exactly when every sequence that was ever bound still begins one that is bound.
-/

/-- A change of a keymap. -/
inductive Call where
  | bind (sequence : List KeyChord) (commandName : String)
  | unbind (sequence : List KeyChord)

namespace Call

def apply (keymap : Keymap) : Call → Keymap
  | bind sequence commandName => keymap.bind sequence commandName
  | unbind sequence => keymap.unbind sequence

/-- What a call does to the map. -/
def denote (bindings : List KeyChord → Option String) : Call → List KeyChord → Option String
  | bind sequence commandName => fun keys => if keys = sequence then some commandName else bindings keys
  | unbind sequence => fun keys => if keys = sequence then none else bindings keys

/-- The sequence a call binds. -/
def bound : Call → Option (List KeyChord)
  | bind sequence _ => some sequence
  | unbind _ => none

end Call

/-- The keymap after a series of calls. -/
def Keymap.ofCalls (calls : List Call) : Keymap := calls.foldl Call.apply {}

/-- The map a series of calls denotes. -/
def denoted (calls : List Call) : List KeyChord → Option String :=
  calls.foldl Call.denote fun _ => none

/-- A proper extension of the sequence is bound. -/
def Extended (bindings : List KeyChord → Option String) (sequence : List KeyChord) : Prop :=
  ∃ rest, rest ≠ [] ∧ (bindings (sequence ++ rest)).isSome

/-- The lookups of a keymap are those of the map. -/
structure Keymap.Refines (keymap : Keymap) (bindings : List KeyChord → Option String) : Prop where
  resolve_match : ∀ sequence commandName,
    keymap.resolve sequence = .Match commandName ↔ bindings sequence = some commandName
  resolve_unfinished : ∀ sequence,
    keymap.resolve sequence = .Prefix ↔ bindings sequence = none ∧ Extended bindings sequence
  resolve_noMatch : ∀ sequence,
    keymap.resolve sequence = .NoMatch ↔ bindings sequence = none ∧ ¬Extended bindings sequence
  childrenAt : ∀ sequence child, child ∈ keymap.childrenAt sequence ↔
    child.commandName = bindings (sequence ++ [child.chord]) ∧
      ∃ rest, (bindings (sequence ++ child.chord :: rest)).isSome
  childrenAt_nodup : ∀ sequence, ((keymap.childrenAt sequence).map (·.chord)).Nodup
  allBindings : ∀ binding, binding ∈ keymap.allBindings ↔
    binding.layer = 0 ∧ bindings binding.sequence = some binding.commandName
  allBindings_nodup : (keymap.allBindings.map (·.sequence)).Nodup

/-- A stack gives the first match of its layers, and otherwise a prefix when a layer has one. -/
structure KeymapStack.Refines (stack : KeymapStack)
    (layers : List (List KeyChord → Option String)) : Prop where
  resolve_match : ∀ sequence commandName, stack.resolve sequence = .Match commandName ↔
    layers.findSome? (fun bindings => bindings sequence) = some commandName
  resolve_unfinished : ∀ sequence, stack.resolve sequence = .Prefix ↔
    (∀ bindings ∈ layers, bindings sequence = none) ∧ ∃ bindings ∈ layers, Extended bindings sequence
  resolve_noMatch : ∀ sequence, stack.resolve sequence = .NoMatch ↔
    (∀ bindings ∈ layers, bindings sequence = none) ∧ ∀ bindings ∈ layers, ¬Extended bindings sequence

/-! ## The nodes and values of a keymap -/

variable {calls : List Call} {keymap : Keymap} {call : Call} {bindings : List KeyChord → Option String}
  {sequence keys : List KeyChord} {commandName : String}

theorem get_apply (h : keymap.root.get = bindings) :
    (call.apply keymap).root.get = call.denote bindings := by
  funext keys
  cases call with
  | bind sequence commandName =>
      simp only [Call.denote]
      split
      · rename_i heq
        exact heq ▸ Trie.get_insert_self
      · rename_i hne
        exact (Trie.get_insert_of_ne hne).trans (congrFun h keys)
  | unbind sequence =>
      simp only [Call.denote]
      split
      · rename_i heq
        exact heq ▸ Trie.get_clear_self
      · rename_i hne
        exact (Trie.get_clear_of_ne hne).trans (congrFun h keys)

theorem get_ofCalls : (Keymap.ofCalls calls).root.get = denoted calls := by
  have hrun : ∀ (keymap : Keymap) bindings, keymap.root.get = bindings →
      (calls.foldl Call.apply keymap).root.get = calls.foldl Call.denote bindings := by
    induction calls with
    | nil => exact fun keymap bindings h => h
    | cons call calls ih => exact fun keymap bindings h => ih _ _ (get_apply h)
  exact hrun {} (fun _ => none) (funext fun keys => Trie.get_empty)

theorem reaches_apply : (call.apply keymap).root.Reaches keys ↔
    keymap.root.Reaches keys ∨ ∃ sequence ∈ call.bound, keys <+: sequence := by
  cases call with
  | bind sequence commandName =>
      apply Iff.trans Trie.reaches_insert
      simp [Call.bound]
  | unbind sequence =>
      apply Iff.trans Trie.reaches_clear
      simp [Call.bound]

/-- The nodes of the trie are those on the way to a sequence that was bound at some time. -/
theorem reaches_ofCalls : (Keymap.ofCalls calls).root.Reaches keys ↔
    keys = [] ∨ ∃ sequence ∈ calls.filterMap Call.bound, keys <+: sequence := by
  have hrun : ∀ keymap : Keymap, (calls.foldl Call.apply keymap).root.Reaches keys ↔
      keymap.root.Reaches keys ∨ ∃ sequence ∈ calls.filterMap Call.bound, keys <+: sequence := by
    induction calls with
    | nil => simp
    | cons call calls ih =>
        intro keymap
        rw [List.foldl_cons, ih, reaches_apply, or_assoc]
        cases hbound : call.bound with
        | none => simp [hbound]
        | some sequence => simp [hbound]
  rw [Keymap.ofCalls, hrun]
  cases keys with
  | nil => simp [Trie.reaches_nil]
  | cons chord keys =>
      have h : ¬({} : Keymap).root.Reaches (chord :: keys) := Trie.not_reaches_empty_cons
      simp [h]

/-! ## Refinement -/

/-- No node is dead: each begins a sequence with a value. -/
def Keymap.Alive (keymap : Keymap) : Prop :=
  ∀ keys, keys ≠ [] → keymap.root.Reaches keys → ∃ rest, (keymap.root.get (keys ++ rest)).isSome

namespace Keymap.Alive

/-- A live node with children has an extension with a value. -/
theorem extended_iff (h : keymap.Alive) : Extended keymap.root.get sequence ↔
    ∃ chord, keymap.root.Reaches (sequence ++ [chord]) := by
  constructor
  · rintro ⟨rest, hne, hsome⟩
    obtain ⟨commandName, hget⟩ := Option.isSome_iff_exists.1 hsome
    cases rest with
    | nil => exact absurd rfl hne
    | cons chord rest =>
        exact ⟨chord, Trie.reaches_of_prefix (Trie.reaches_of_get hget) ⟨rest, by simp⟩⟩
  · rintro ⟨chord, hreaches⟩
    obtain ⟨rest, hsome⟩ := h _ (by simp) hreaches
    exact ⟨chord :: rest, by simp, by simpa using hsome⟩

theorem refines (h : keymap.Alive) : keymap.Refines keymap.root.get where
  resolve_match _ _ := resolve_eq_match_iff
  resolve_unfinished sequence := by rw [resolve_eq_prefix_iff, h.extended_iff]
  resolve_noMatch sequence := by
    cases hlookup : keymap.resolve sequence with
    | Match commandName => simp [resolve_eq_match_iff.1 hlookup]
    | Prefix =>
        have hext : Extended keymap.root.get sequence :=
          h.extended_iff.2 (resolve_eq_prefix_iff.1 hlookup).2
        simp [hext]
    | NoMatch =>
        have hnone : keymap.root.get sequence = none := by
          apply Option.eq_none_iff_forall_ne_some.2
          intro commandName hget
          rw [resolve_eq_match_iff.2 hget] at hlookup
          cases hlookup
        have hext : ¬Extended keymap.root.get sequence := by
          intro hext
          rw [resolve_eq_prefix_iff.2 ⟨hnone, h.extended_iff.1 hext⟩] at hlookup
          cases hlookup
        simp [hnone, hext]
  childrenAt sequence child := by
    rw [mem_childrenAt_iff]
    apply and_congr_right
    intro hcommand
    constructor
    · intro hreaches
      obtain ⟨rest, hsome⟩ := h _ (by simp) hreaches
      exact ⟨rest, by simpa using hsome⟩
    · rintro ⟨rest, hsome⟩
      obtain ⟨commandName, hget⟩ := Option.isSome_iff_exists.1 hsome
      exact Trie.reaches_of_prefix (Trie.reaches_of_get hget) ⟨rest, by simp⟩
  childrenAt_nodup _ := childrenAt_nodup
  allBindings _ := mem_allBindings_iff
  allBindings_nodup := allBindings_nodup

end Keymap.Alive

theorem Keymap.Refines.alive (h : keymap.Refines keymap.root.get) : keymap.Alive := by
  intro keys hne hreaches
  obtain ⟨sequence, chord, rfl⟩ := (List.eq_nil_or_concat keys).resolve_left hne
  rw [List.concat_eq_append] at hreaches ⊢
  have hlisted : ⟨chord, keymap.root.get (sequence ++ [chord])⟩ ∈ keymap.childrenAt sequence :=
    mem_childrenAt_iff.2 ⟨rfl, hreaches⟩
  obtain ⟨-, rest, hsome⟩ := (h.childrenAt sequence _).1 hlisted
  exact ⟨rest, by simpa using hsome⟩

theorem alive_ofCalls_iff : (Keymap.ofCalls calls).Alive ↔
    ∀ sequence ∈ calls.filterMap Call.bound, sequence ≠ [] →
      ∃ keys, sequence <+: keys ∧ (denoted calls keys).isSome := by
  rw [Keymap.Alive, get_ofCalls]
  constructor
  · intro h sequence hbound hne
    obtain ⟨rest, hsome⟩ := h sequence hne (reaches_ofCalls.2 (.inr ⟨_, hbound, List.prefix_rfl⟩))
    exact ⟨_, List.prefix_append _ _, hsome⟩
  · intro h keys hne hreaches
    obtain ⟨sequence, hbound, hinitial⟩ := (reaches_ofCalls.1 hreaches).resolve_left hne
    have hsequence : sequence ≠ [] := by
      rintro rfl
      exact hne (List.prefix_nil.1 hinitial)
    obtain ⟨_, hinitial', hsome⟩ := h sequence hbound hsequence
    obtain ⟨rest, rfl⟩ := hinitial.trans hinitial'
    exact ⟨rest, hsome⟩

/-! ## Layers -/

variable {layers : List Keymap}

/-- Layers that refine their maps make a stack that does. -/
theorem KeymapStack.refines (h : ∀ layer ∈ layers, layer.Refines layer.root.get) :
    (KeymapStack.mk layers).Refines (layers.map fun layer => layer.root.get) := by
  have hinitial : ∀ sequence, (KeymapStack.mk layers).resolve sequence = .Prefix ↔
      (∀ layer ∈ layers, layer.root.get sequence = none) ∧
        ∃ layer ∈ layers, Extended layer.root.get sequence := by
    intro sequence
    apply resolveIn_eq_prefix_iff.trans
    apply and_congr_right
    intro hnone
    simp only [Bool.false_eq_true, false_or]
    apply exists_congr
    intro layer
    apply and_congr_right
    intro hlayer
    simp [(h layer hlayer).resolve_unfinished, hnone layer hlayer]
  have hmatch : ∀ sequence commandName, (KeymapStack.mk layers).resolve sequence = .Match commandName ↔
      (layers.map fun layer => layer.root.get).findSome? (fun bindings => bindings sequence) =
        some commandName := by
    intro sequence commandName
    rw [List.findSome?_map]
    exact resolveIn_eq_match_iff
  refine ⟨hmatch, fun sequence => ?_, fun sequence => ?_⟩
  · simp [hinitial]
  · cases hlookup : (KeymapStack.mk layers).resolve sequence with
    | Match commandName =>
        have hfound := (hmatch sequence commandName).1 hlookup
        have hsome := List.exists_of_findSome?_eq_some hfound
        obtain ⟨bindings, hbindings, hsome⟩ := hsome
        simp only [reduceCtorEq, false_iff, not_and]
        intro hnone
        rw [hnone bindings hbindings] at hsome
        cases hsome
    | Prefix =>
        obtain ⟨-, layer, hlayer, hext⟩ := (hinitial sequence).1 hlookup
        simp only [reduceCtorEq, false_iff, not_and, not_forall, not_not]
        exact fun _ => ⟨_, List.mem_map_of_mem hlayer, hext⟩
    | NoMatch =>
        have hnone : ∀ layer ∈ layers, layer.root.get sequence = none := by
          have hfound : layers.findSome? (fun layer => layer.root.get sequence) = none := by
            apply Option.eq_none_iff_forall_ne_some.2
            intro commandName hfound
            have hcontra : (KeymapStack.mk layers).resolve sequence = .Match commandName :=
              resolveIn_eq_match_iff.2 hfound
            rw [hlookup] at hcontra
            cases hcontra
          simpa using hfound
        have hext : ∀ layer ∈ layers, ¬Extended layer.root.get sequence := by
          intro layer hlayer hext
          rw [(hinitial sequence).2 ⟨hnone, layer, hlayer, hext⟩] at hlookup
          cases hlookup
        simpa using ⟨hnone, hext⟩

/-- The lookups of the layers, and of the stack, are those of the maps that the calls denote exactly when
every sequence that was bound at some time begins one that is bound at the end. -/
theorem ofCalls_refines_iff (layers : List (List Call)) :
    ((∀ calls ∈ layers, (Keymap.ofCalls calls).Refines (denoted calls)) ∧
      (KeymapStack.mk (layers.map Keymap.ofCalls)).Refines (layers.map denoted)) ↔
    ∀ calls ∈ layers, ∀ sequence ∈ calls.filterMap Call.bound, sequence ≠ [] →
      ∃ keys, sequence <+: keys ∧ (denoted calls keys).isSome := by
  have halive : ∀ calls, (Keymap.ofCalls calls).Refines (denoted calls) ↔ (Keymap.ofCalls calls).Alive := by
    intro calls
    rw [← get_ofCalls]
    exact ⟨fun h => h.alive, fun h => h.refines⟩
  simp only [halive, ← alive_ofCalls_iff]
  constructor
  · exact fun h => h.1
  · intro h
    refine ⟨h, ?_⟩
    have hlayers : ∀ layer ∈ layers.map Keymap.ofCalls, layer.Refines layer.root.get := by
      intro layer hlayer
      obtain ⟨calls, hcalls, rfl⟩ := List.mem_map.1 hlayer
      exact (h calls hcalls).refines
    simpa [Function.comp_def, get_ofCalls] using KeymapStack.refines hlayers

/-- Unbinding the only sequence below a chord leaves the chord a prefix. -/
theorem ofCalls_refines_fails :
    let x : KeyChord := { control := true, codepoint := 120 }
    let s : KeyChord := { control := true, codepoint := 115 }
    ¬(Keymap.ofCalls [.bind [x, s] "save-buffer", .unbind [x, s]]).Refines
      (denoted [.bind [x, s] "save-buffer", .unbind [x, s]]) := by
  intro x s h
  obtain ⟨-, rest, hne, hsome⟩ := (h.resolve_unfinished [x]).1 (by decide)
  have hnone : ∀ keys, denoted [.bind [x, s] "save-buffer", .unbind [x, s]] keys = none := by
    intro keys
    simp only [denoted, List.foldl_cons, List.foldl_nil, Call.denote]
    split <;> rfl
  simp [hnone] at hsome

end Ned.Editor.Keys
