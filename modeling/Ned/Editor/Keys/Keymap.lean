import Ned.Library.Trie
import Mathlib.Algebra.Order.Monoid.Prod
import Mathlib.Algebra.Order.Ring.Nat
import Mathlib.Order.BooleanAlgebra.Basic

/-!
# Keymaps

A keymap binds sequences of key chords to command names. A stack of keymaps resolves a sequence in its
layers, the first match counting, and reports which bindings can be reached by typing.
-/

namespace Ned.Editor.Keys

open Library

/-! ## Key chords -/

/-- A named key, or none where the chord holds a literal character. -/
inductive SpecialKey where
  | None | Enter | Tab | Backspace | Delete | Escape | Up | Down | Left | Right | Home | End | PageUp
  | PageDown | F1 | F2 | F3 | F4 | F5 | F6 | F7 | F8 | F9 | F10 | F11 | F12 | Super
  deriving DecidableEq

/-- One keystroke: modifiers, and a named key or a codepoint. -/
structure KeyChord where
  control : Bool := false
  «meta» : Bool := false
  shift : Bool := false
  super : Bool := false
  special : SpecialKey := .None
  codepoint : Nat := 0

namespace KeyChord

/-- The fields in the order in which chords are compared by them. -/
def fields (chord : KeyChord) : Bool ×ₗ Bool ×ₗ Bool ×ₗ Bool ×ₗ Nat ×ₗ Nat :=
  toLex (chord.control, toLex (chord.meta, toLex (chord.shift, toLex (chord.super,
    toLex (chord.special.ctorIdx, chord.codepoint)))))

theorem special_injective : Function.Injective SpecialKey.ctorIdx := by
  intro key key' h
  cases key <;> cases key' <;> first | rfl | cases h

theorem fields_injective : Function.Injective fields := by
  rintro ⟨c, m, s, w, key, p⟩ ⟨c', m', s', w', key', p'⟩ h
  simp only [fields, EmbeddingLike.apply_eq_iff_eq, Prod.mk.injEq] at h
  obtain ⟨rfl, rfl, rfl, rfl, hkey, rfl⟩ := h
  rw [special_injective hkey]

instance : LinearOrder KeyChord := LinearOrder.lift' fields fields_injective

end KeyChord

/-! ## One keymap -/

/-- What a sequence of chords stands for. -/
inductive Lookup where
  | NoMatch
  | Prefix
  | Match (commandName : String)
  deriving DecidableEq

/-- A chord that may come next, and its command where it completes a binding. -/
structure ChildBinding where
  chord : KeyChord
  commandName : Option String
  deriving DecidableEq

/-- A bound sequence, its command, and the layer of the stack it came from. -/
structure Binding where
  sequence : List KeyChord
  commandName : String
  layer : Nat := 0
  deriving DecidableEq

/-- A trie of bindings. -/
structure Keymap where
  root : Trie KeyChord String := Trie.empty
  sorted : root.Sorted := by exact Ned.Library.Trie.sorted_empty

namespace Keymap

def bind (keymap : Keymap) (sequence : List KeyChord) (commandName : String) : Keymap where
  root := keymap.root.insert commandName sequence
  sorted := keymap.sorted.insert

/-- The command of the sequence goes, its node stays. -/
def unbind (keymap : Keymap) (sequence : List KeyChord) : Keymap where
  root := keymap.root.clear sequence
  sorted := keymap.sorted.clear

def resolve (keymap : Keymap) (sequence : List KeyChord) : Lookup :=
  match keymap.root.descend sequence with
  | none => .NoMatch
  | some node =>
      match node.value with
      | some commandName => .Match commandName
      | none => if node.children.isEmpty then .NoMatch else .Prefix

def childrenAt (keymap : Keymap) (sequence : List KeyChord) : List ChildBinding :=
  match keymap.root.descend sequence with
  | none => []
  | some node => node.children.map fun entry => ⟨entry.1, entry.2.value⟩

def allBindings (keymap : Keymap) : List Binding :=
  (keymap.root.entries []).map fun entry => { sequence := entry.1, commandName := entry.2 }

end Keymap

/-! ## Layers -/

/-- Keymaps in the order of their priority. -/
structure KeymapStack where
  layers : List Keymap

namespace KeymapStack

/-- The first match among the layers. Without one, whether a layer has the sequence as a prefix. -/
def resolveIn (sequence : List KeyChord) (anyPrefix : Bool) : List Keymap → Lookup
  | [] => if anyPrefix then .Prefix else .NoMatch
  | layer :: layers =>
      match layer.resolve sequence with
      | .Match commandName => .Match commandName
      | .Prefix => resolveIn sequence true layers
      | .NoMatch => resolveIn sequence anyPrefix layers

def resolve (stack : KeymapStack) (sequence : List KeyChord) : Lookup :=
  resolveIn sequence false stack.layers

/-- Adds the chords that are not there yet. -/
def mergeChildren (merged : List ChildBinding) (bindings : List ChildBinding) : List ChildBinding :=
  bindings.foldl
    (fun merged binding => if merged.any (·.chord == binding.chord) then merged else merged ++ [binding])
    merged

def childrenAt (stack : KeymapStack) (sequence : List KeyChord) : List ChildBinding :=
  stack.layers.foldl (fun merged layer => mergeChildren merged (layer.childrenAt sequence)) []

/-- The command of a lookup, empty without a match. -/
def commandOf : Lookup → String
  | .Match commandName => commandName
  | _ => ""

/-- The first of the lengths whose prefix matches, and its command. Empty when none does. -/
def firstMatchAmong (stack : KeymapStack) (sequence : List KeyChord) : List Nat → String
  | [] => ""
  | length :: lengths =>
      match stack.resolve (sequence.take length) with
      | .Match commandName => commandName
      | _ => firstMatchAmong stack sequence lengths

/-- Empty when the binding is reachable, otherwise the command reported as firing instead of it. -/
def shadowingCommand (stack : KeymapStack) (binding : Binding) : String :=
  let commandName := commandOf (stack.resolve binding.sequence)
  if commandName ≠ binding.commandName then commandName
  else firstMatchAmong stack binding.sequence (List.range' 1 (binding.sequence.length - 1))

/-- The bindings of all layers, each with its layer. -/
def layerBindings (stack : KeymapStack) : List Binding :=
  stack.layers.zipIdx.flatMap fun entry => entry.1.allBindings.map fun b => { b with layer := entry.2 }

def allBindings (stack : KeymapStack) : List Binding :=
  stack.layerBindings.filter fun binding => (stack.shadowingCommand binding).isEmpty

/-- A binding that typing does not reach, and the command reported to win instead. -/
structure ShadowedBinding where
  binding : Binding
  shadowedBy : String
  deriving DecidableEq

def shadowedBindings (stack : KeymapStack) : List ShadowedBinding :=
  stack.layerBindings.filterMap fun binding =>
    let shadowedBy := stack.shadowingCommand binding
    if shadowedBy.isEmpty then none else some ⟨binding, shadowedBy⟩

end KeymapStack

/-!
## The dispatcher

Key chords accumulate until the keymaps have a match for them, which is then invoked. A command may do
anything to its context, and may throw.
-/

/-! ## Commands -/

/-- What a command works on. Buffers, kill ring and the like are left to the type `World`. -/
structure CommandContext (World : Type) where
  world : World
  triggeringKey : KeyChord := {}
  lastCommand : String := ""
  prefixArg : Option Int := none

/-- What an exception carries. -/
abbrev Failure := String

/-- A command changes its context, also when it throws. -/
abbrev CommandFunction (World : Type) := CommandContext World → Option Failure × CommandContext World

/-- The commands by their names. -/
structure CommandRegistry (World : Type) where
  find : String → Option (CommandFunction World)

variable {World : Type}

/-- What invoking a command came to. -/
structure Invocation (World : Type) where
  /-- The exception, if one was thrown. -/
  thrown : Option Failure
  context : CommandContext World
  /-- The commands that were run, in order. -/
  invoked : List String

def CommandRegistry.invoke (registry : CommandRegistry World) (name : String)
    (context : CommandContext World) : Invocation World :=
  match registry.find name with
  | none => ⟨some ("ned: no such command: " ++ name), context, []⟩
  | some command =>
      let result := command context
      ⟨result.1, result.2, [name]⟩

/-- Invokes a command a number of times, unless it throws. -/
def CommandRegistry.invokeTimes (registry : CommandRegistry World) (name : String) :
    Nat → CommandContext World → Invocation World
  | 0, context => ⟨none, context, []⟩
  | times + 1, context =>
      let first := registry.invoke name context
      match first.thrown with
      | some failure => ⟨some failure, first.context, first.invoked⟩
      | none =>
          let rest := registry.invokeTimes name times first.context
          ⟨rest.thrown, rest.context, first.invoked ++ rest.invoked⟩

/-- Opens and closes an undo group of the buffer. -/
structure UndoGroups (World : Type) where
  beginUndoGroup : World → World
  endUndoGroup : World → World

/-! ## Prefix arguments -/

/-- Motion commands and their opposites. -/
def directionPairs : List (String × String) :=
  [("forward-char", "backward-char"), ("backward-char", "forward-char"), ("next-line", "previous-line"),
    ("previous-line", "next-line"), ("forward-word", "backward-word"), ("backward-word", "forward-word"),
    ("scroll-page-down", "scroll-page-up"), ("scroll-page-up", "scroll-page-down")]

/-- A negative argument turns a motion round. -/
def resolvePrefixArg (commandName : String) (value : Int) : String × Nat :=
  if value ≥ 0 then (commandName, value.toNat)
  else (((directionPairs.lookup commandName).getD commandName), (-value).toNat)

/-! ## Feeding a chord -/

/-- A printable codepoint without control or meta. -/
def isSelfInsertableFallback (chord : KeyChord) : Bool :=
  if chord.control || chord.meta || chord.special != .None || chord.codepoint == 0 then false
  else if chord.codepoint < 0x20 || chord.codepoint == 0x7F then false
  else chord.codepoint < 0x80 || chord.codepoint > 0x9F

def isBareCtrlG (chord : KeyChord) : Bool :=
  chord.control && !chord.meta && chord.special == .None && chord.codepoint == 103

inductive Outcome where
  | Invoked
  | Pending
  | Unbound
  deriving DecidableEq

structure Dispatcher where
  keymaps : KeymapStack
  pending : List KeyChord := []
  lastInvokedCommand : String := ""
  recording : Bool := false
  currentMacro : List KeyChord := []
  lastMacro : List KeyChord := []
  lastRecordedChordCount : Nat := 0

/-- What feeding a chord came to: an outcome, unless a command threw. -/
structure Fed (World : Type) where
  outcome : Except Failure Outcome
  dispatcher : Dispatcher
  context : CommandContext World
  /-- The commands that were run, in order. -/
  invoked : List String

namespace Dispatcher

/-- Appends chords to the macro being recorded. -/
def record (dispatcher : Dispatcher) (chords : List KeyChord) : Dispatcher :=
  if dispatcher.recording then
    { dispatcher with
      currentMacro := dispatcher.currentMacro ++ chords
      lastRecordedChordCount := chords.length }
  else dispatcher

/-- The command counts as the last one invoked when it returned. -/
def finish (dispatcher : Dispatcher) (name : String) (result : Invocation World) : Fed World :=
  match result.thrown with
  | some failure => ⟨.error failure, dispatcher, result.context, result.invoked⟩
  | none =>
      ⟨.ok .Invoked, { dispatcher with lastInvokedCommand := name }, result.context, result.invoked⟩

/-- Invokes the command of a match, as often as the prefix argument says. -/
def invokeMatch (undo : UndoGroups World) (registry : CommandRegistry World) (commandName : String)
    (context : CommandContext World) : Invocation World :=
  match context.prefixArg with
  | none => registry.invoke commandName context
  | some value =>
      let resolution := resolvePrefixArg commandName value
      let result :=
        if resolution.2 = 1 then registry.invoke resolution.1 context
        else if resolution.2 > 0 then
          let opened := { context with world := undo.beginUndoGroup context.world }
          let repeated := registry.invokeTimes resolution.1 resolution.2 opened
          { repeated with
            context :=
              { repeated.context with world := undo.endUndoGroup repeated.context.world } }
        else ⟨none, context, []⟩
      -- an exception leaves before the argument is reset
      if result.thrown.isSome then result
      else { result with context := { result.context with prefixArg := none } }

def feed (undo : UndoGroups World) (registry : CommandRegistry World) (dispatcher : Dispatcher)
    (chord : KeyChord) (context : CommandContext World) : Fed World :=
  if isBareCtrlG chord && (!dispatcher.pending.isEmpty || context.prefixArg.isSome) then
    let dispatcher := { dispatcher with pending := [] }
    let context := { context with prefixArg := none }
    match registry.find "keyboard-quit" with
    | some _ =>
        let context := { context with lastCommand := dispatcher.lastInvokedCommand }
        dispatcher.finish "keyboard-quit" (registry.invoke "keyboard-quit" context)
    | none => ⟨.ok .Unbound, dispatcher, context, []⟩
  else
    let pending := dispatcher.pending ++ [chord]
    let context := { context with triggeringKey := chord }
    match dispatcher.keymaps.resolve pending with
    | .Match commandName =>
        let dispatcher := { dispatcher.record pending with pending := [] }
        let context := { context with lastCommand := dispatcher.lastInvokedCommand }
        dispatcher.finish commandName (invokeMatch undo registry commandName context)
    | .Prefix => ⟨.ok .Pending, { dispatcher with pending := pending }, context, []⟩
    | .NoMatch =>
        let dispatcher := { dispatcher with pending := [] }
        let context := { context with prefixArg := none }
        -- only a chord with nothing before it inserts itself
        if pending.length == 1 && isSelfInsertableFallback chord then
          match registry.find "self-insert-command" with
          | some _ =>
              let dispatcher := dispatcher.record [chord]
              let context := { context with lastCommand := dispatcher.lastInvokedCommand }
              dispatcher.finish "self-insert-command" (registry.invoke "self-insert-command" context)
          | none => ⟨.ok .Unbound, dispatcher, context, []⟩
        else ⟨.ok .Unbound, dispatcher, context, []⟩

/-- Feeds chords one after the other, until a command throws: for each, the commands it ran. -/
def feedAll (undo : UndoGroups World) (registry : CommandRegistry World) :
    Dispatcher → CommandContext World → List KeyChord → List (List String)
  | _, _, [] => []
  | dispatcher, context, chord :: chords =>
      let fed := dispatcher.feed undo registry chord context
      match fed.outcome with
      | .error _ => [fed.invoked]
      | .ok _ => fed.invoked :: feedAll undo registry fed.dispatcher fed.context chords

end Dispatcher

end Ned.Editor.Keys
