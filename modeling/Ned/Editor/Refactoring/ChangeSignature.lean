import Ned.Library.Assoc
import Ned.Text.Bytes
import Mathlib.Data.List.Basic

/-!
# Changing a signature

Matching an old parameter list with the new one, and rewriting the arguments of one call, as in
`Editor/ChangeSignature.cpp`. Texts are bytes and everything else is a range of them.
-/

namespace Ned.Editor.Refactoring

open Library (erase)
open Text (Bytes substr sizeMax)

/-- A `std::size_t` difference, which wraps around. -/
def sizeSub (a b : Nat) : Nat := if b ≤ a then a - b else a + (sizeMax + 1) - b

inductive ParameterReceiver
  | none
  | inst
  | any
  | always
  deriving DecidableEq

structure SignatureParameter where
  startByte : Nat
  endByte : Nat
  nameStartByte : Nat := 0
  nameEndByte : Nat := 0
  hasDefaultValue : Bool := false
  defaultStartByte : Nat := 0
  defaultEndByte : Nat := 0
  isVariadic : Bool := false
  receiver : ParameterReceiver := .none
  isKeyword : Bool := false
  labelStartByte : Nat := 0
  labelEndByte : Nat := 0
  deriving DecidableEq

structure CallArgument where
  startByte : Nat
  endByte : Nat
  positional : Bool := true
  nameStartByte : Nat := 0
  nameEndByte : Nat := 0
  deriving DecidableEq

inductive CallReceiver
  | none
  | inst
  | type
  | explicit
  | first
  deriving DecidableEq

/-- Why there is no result: an exception, or a reason to decline. -/
inductive Refusal
  | thrown
  | declined (reason : Bytes)
  deriving DecidableEq

def bytes (text : String) : Bytes := text.toUTF8.toList

def decline {α : Type} (reason : Bytes) : Except Refusal α := .error (.declined reason)

def range (text : Bytes) (startByte endByte : Nat) : Bytes :=
  substr text startByte (sizeSub endByte startByte)

/-- `text.substr(start, end - start)`, which throws past the end. -/
def slice (text : Bytes) (startByte endByte : Nat) : Except Refusal Bytes :=
  if startByte ≤ text.length then .ok (range text startByte endByte) else .error .thrown

/-- A parameter without a name is known by its text. -/
def nameOf (text : Bytes) (parameter : SignatureParameter) : Except Refusal Bytes :=
  if parameter.nameStartByte ≠ parameter.nameEndByte then
    slice text parameter.nameStartByte parameter.nameEndByte
  else slice text parameter.startByte parameter.endByte

/-! ## Matching the lists -/

/-- Where the value of a new parameter comes from. -/
inductive ParamOrigin
  | kept (oldIndex : Nat)
  | new (defaultStartByte defaultEndByte labelStartByte labelEndByte : Nat)
  deriving DecidableEq

structure MappingResult where
  origins : List ParamOrigin := []
  oldArity : Nat := 0
  receivers : List ParameterReceiver := []
  keptKeywords : List Bytes := []
  droppedKeywords : List Bytes := []
  deriving DecidableEq

/-- The receivers that lead the old positional parameters. -/
def leadingReceivers (oldPositional : List SignatureParameter) : List ParameterReceiver :=
  (oldPositional.map (·.receiver)).takeWhile (· ≠ .none)

/-- Whether one of the receivers is not where it was. -/
def anyMoved (oldText newText : Bytes) :
    List (SignatureParameter × SignatureParameter) → Except Refusal Bool
  | [] => .ok false
  | (old, new) :: rest => do
      if new.isKeyword then return true
      let oldName ← nameOf oldText old
      let newName ← nameOf newText new
      if oldName ≠ newName then return true
      anyMoved oldText newText rest

def receiverMoved (oldText newText : Bytes) (oldPositional newParams : List SignatureParameter) :
    Except Refusal Bool :=
  let count := (leadingReceivers oldPositional).length
  if (oldPositional.drop count).any (·.receiver ≠ .none) then .ok true
  else if newParams.length < count then .ok true
  else anyMoved oldText newText ((oldPositional.zip newParams).take count)

/-- One old name more for the table, and for the names that are not unique. -/
def noteOldName (tables : List (Bytes × Nat) × List Bytes) (entry : Bytes × Nat) :
    List (Bytes × Nat) × List Bytes :=
  if (tables.1.lookup entry.1).isSome then (tables.1, entry.1 :: tables.2)
  else (tables.1 ++ [entry], tables.2)

/-- The places of the old names, less those of names that are not unique. -/
def oldIndexByName (names : List Bytes) : List (Bytes × Nat) :=
  let tables := names.zipIdx.foldl noteOldName ([], [])
  tables.2.foldl erase tables.1

/-- The origins of the new parameters, the keywords that are kept, and the names seen. -/
def mapParameters (newText : Bytes) (oldKeywords : List Bytes) (oldIndex : List (Bytes × Nat)) :
    List SignatureParameter → List Bytes →
      Except Refusal (List ParamOrigin × List Bytes × List Bytes)
  | [], seen => .ok ([], [], seen)
  | parameter :: rest, seen => do
      let name ← nameOf newText parameter
      if name ∈ seen then
        decline (bytes "new parameter list uses the name \"" ++ name ++ bytes "\" more than once")
      else if parameter.isKeyword ≠ decide (name ∈ oldKeywords) ∧
          (name ∈ oldKeywords ∨ (oldIndex.lookup name).isSome) then
        decline (bytes "\"" ++ name ++ bytes "\" can't move between positional and keyword-only")
      else if parameter.isKeyword then
        if name ∉ oldKeywords ∧ parameter.hasDefaultValue = false then
          decline (bytes "new parameter \"" ++ name ++ bytes "\" needs a default value")
        else do
          let (origins, kept, seen) ← mapParameters newText oldKeywords oldIndex rest (name :: seen)
          .ok (origins, if name ∈ oldKeywords then name :: kept else kept, seen)
      else
        match oldIndex.lookup name with
        | some index => do
            let (origins, kept, seen) ←
              mapParameters newText oldKeywords oldIndex rest (name :: seen)
            .ok (.kept index :: origins, kept, seen)
        | none =>
            if parameter.hasDefaultValue = false then
              decline (bytes "new parameter \"" ++ name ++ bytes "\" needs a default value")
            else do
              let (origins, kept, seen) ←
                mapParameters newText oldKeywords oldIndex rest (name :: seen)
              .ok (.new parameter.defaultStartByte parameter.defaultEndByte
                parameter.labelStartByte parameter.labelEndByte :: origins, kept, seen)

def buildPositionMapping (oldText : Bytes) (oldParams : List SignatureParameter) (newText : Bytes)
    (newParams : List SignatureParameter) : Except Refusal MappingResult := do
  if oldParams.any (·.isVariadic) || newParams.any (·.isVariadic) then
    decline (bytes "a variadic parameter can't be reordered, dropped or defaulted")
  else do
    let oldKeywords ← (oldParams.filter (·.isKeyword)).mapM (nameOf oldText)
    let oldPositional := oldParams.filter (!·.isKeyword)
    let moved ← receiverMoved oldText newText oldPositional newParams
    if moved then decline (bytes "a method's receiver has to stay first and unchanged")
    else do
      let oldNames ← oldPositional.mapM (nameOf oldText)
      let (origins, kept, seen) ←
        mapParameters newText oldKeywords (oldIndexByName oldNames) newParams []
      .ok { origins := origins, oldArity := oldPositional.length,
            receivers := leadingReceivers oldPositional, keptKeywords := kept,
            droppedKeywords := oldKeywords.filter (· ∉ seen) }

/-! ## Rewriting a call -/

/-- The positional arguments, and the texts of the named ones that stay. -/
def splitArguments (callText : Bytes) (mapping : MappingResult) :
    List CallArgument → Except Refusal (List CallArgument × List Bytes)
  | [] => .ok ([], [])
  | argument :: rest =>
      if argument.positional then do
        let (positional, named) ← splitArguments callText mapping rest
        .ok (argument :: positional, named)
      else if argument.nameStartByte = argument.nameEndByte then
        decline (bytes "call site spreads its arguments")
      else do
        let name ← slice callText argument.nameStartByte argument.nameEndByte
        if name ∈ mapping.droppedKeywords then splitArguments callText mapping rest
        else if name ∉ mapping.keptKeywords then
          decline (bytes "call site passes an argument by name")
        else do
          let text ← slice callText argument.startByte argument.endByte
          let (positional, named) ← splitArguments callText mapping rest
          .ok (positional, text :: named)

/-- Whether a call's object supplies a receiver. -/
def supplies (receiver : CallReceiver) (parameter : ParameterReceiver) : Bool :=
  (parameter = .always && receiver ≠ .explicit) ||
    (parameter = .inst && receiver = .inst) ||
    (parameter = .any && receiver ≠ .none && receiver ≠ .explicit)

/-- How many leading parameters a call's object supplies. -/
def implicitCount (mapping : MappingResult) (receiver : CallReceiver) : Except Refusal Nat :=
  let implicit := (mapping.receivers.takeWhile (supplies receiver)).length
  if receiver = .first ∧ implicit = 0 then
    if mapping.oldArity = 0 ∨ mapping.origins.head? ≠ some (.kept 0) then
      decline (bytes "call site passes its object as the first parameter, which moved")
    else .ok 1
  else .ok implicit

/-- The text that a new parameter is passed. -/
def originPiece (callText newDefaultText : Bytes) (positional : List CallArgument) (implicit : Nat) :
    ParamOrigin → Except Refusal Bytes
  | .kept oldIndex =>
      match positional[sizeSub oldIndex implicit]? with
      | some argument => slice callText argument.startByte argument.endByte
      | none =>
          decline (bytes "call site supplies fewer arguments than the old signature has parameters")
  | .new defaultStartByte defaultEndByte labelStartByte labelEndByte => do
      let value ← slice newDefaultText defaultStartByte defaultEndByte
      if labelStartByte < labelEndByte then do
        let label ← slice newDefaultText labelStartByte labelEndByte
        .ok (label ++ bytes ": " ++ value)
      else .ok value

def append (separator result piece : Bytes) : Bytes :=
  if result.isEmpty then piece else result ++ separator ++ piece

def rewriteArgumentList (callText : Bytes) (oldArgs : List CallArgument) (newDefaultText : Bytes)
    (mapping : MappingResult) (receiver : CallReceiver) (separator : Bytes) (curried : Bool) :
    Except Refusal Bytes := do
  let (positional, named) ← splitArguments callText mapping oldArgs
  let implicit ← implicitCount mapping receiver
  if sizeSub mapping.oldArity implicit < positional.length then
    decline (bytes "call site supplies more arguments than the old signature has parameters")
  else if curried ∧ positional.length < sizeSub mapping.oldArity implicit then
    decline (bytes "call site applies the function partially")
  else do
    -- the receivers that the object supplies stay in place
    let pieces ← (mapping.origins.drop implicit).mapM
      (originPiece callText newDefaultText positional implicit)
    .ok ((pieces ++ named).foldl (append separator) [])

end Ned.Editor.Refactoring

/-!
## What a call means

Which parameter each argument of a call is for, under the old signature and under the new one.
-/

namespace Ned.Editor.Refactoring

open Text (Bytes)

def parameterName (text : Bytes) (parameter : SignatureParameter) : Bytes :=
  if parameter.nameStartByte ≠ parameter.nameEndByte then
    range text parameter.nameStartByte parameter.nameEndByte
  else range text parameter.startByte parameter.endByte

def positionalParameters (params : List SignatureParameter) : List SignatureParameter :=
  params.filter (!·.isKeyword)

def positionalNames (text : Bytes) (params : List SignatureParameter) : List Bytes :=
  (positionalParameters params).map (parameterName text)

def keywordNames (text : Bytes) (params : List SignatureParameter) : List Bytes :=
  (params.filter (·.isKeyword)).map (parameterName text)

def argumentText (text : Bytes) (argument : CallArgument) : Bytes :=
  range text argument.startByte argument.endByte

def argumentName (text : Bytes) (argument : CallArgument) : Bytes :=
  range text argument.nameStartByte argument.nameEndByte

/-- The positional arguments of a call. -/
def positionalTexts (text : Bytes) (args : List CallArgument) : List Bytes :=
  (args.filter (·.positional)).map (argumentText text)

/-- The named arguments of a call, with their names. -/
def namedTexts (text : Bytes) (args : List CallArgument) : List (Bytes × Bytes) :=
  (args.filter (!·.positional)).map fun argument =>
    (argumentName text argument, argumentText text argument)

/-- The default of a new parameter. -/
def defaultText (text : Bytes) (parameter : SignatureParameter) : Bytes :=
  range text parameter.defaultStartByte parameter.defaultEndByte

/-- The default as a call writes it, after the parameter's label. -/
def labelledDefault (text : Bytes) (parameter : SignatureParameter) : Bytes :=
  if parameter.labelStartByte < parameter.labelEndByte then
    range text parameter.labelStartByte parameter.labelEndByte ++ bytes ": " ++
      defaultText text parameter
  else defaultText text parameter

/-- How many leading parameters the object of a call is passed as. -/
def objectFills (oldParams : List SignatureParameter) (receiver : CallReceiver) : Nat :=
  let leading :=
    ((leadingReceivers (positionalParameters oldParams)).takeWhile (supplies receiver)).length
  if receiver = .first ∧ leading = 0 then 1 else leading

/-- The argument for the positional parameter at a place, where the object fills the first ones. -/
def argumentAt (values : List Bytes) (filled place : Nat) : Option Bytes :=
  if filled ≤ place then values[place - filled]? else none

/-- A name's only place. -/
def OnlyAt (names : List Bytes) (name : Bytes) (place : Nat) : Prop :=
  names[place]? = some name ∧ ∀ other, names[other]? = some name → other = place

/-- An argument list with the meaning of an old call: `filled` parameters are the object's, and each of
the others that was there under its name has the argument that it had. -/
structure KeepsMeaning (oldText : Bytes) (oldParams : List SignatureParameter) (newText : Bytes)
    (newParams : List SignatureParameter) (callText : Bytes) (oldArgs : List CallArgument)
    (filled : Nat) (separator text : Bytes) : Prop where
  old_le : filled ≤ (positionalNames oldText oldParams).length
  object : ∀ place < filled,
    (positionalNames newText newParams)[place]? = (positionalNames oldText oldParams)[place]?
  passes : ∃ values : List Bytes,
    text = separator.intercalate (values ++
      ((namedTexts callText oldArgs).filter fun argument =>
        argument.1 ∈ keywordNames oldText oldParams &&
          argument.1 ∈ keywordNames newText newParams).map (·.2)) ∧
    filled + values.length = (positionalNames newText newParams).length ∧
    ∀ place parameter, filled ≤ place →
      (positionalParameters newParams)[place]? = some parameter →
      (∀ oldPlace,
        OnlyAt (positionalNames oldText oldParams) (parameterName newText parameter) oldPlace →
        filled ≤ oldPlace ∧ ∃ value,
          argumentAt (positionalTexts callText oldArgs) filled oldPlace = some value ∧
          argumentAt values filled place = some value) ∧
      ((∀ oldPlace,
        ¬ OnlyAt (positionalNames oldText oldParams) (parameterName newText parameter) oldPlace) →
        parameter.hasDefaultValue = true ∧
          argumentAt values filled place = some (labelledDefault newText parameter))

end Ned.Editor.Refactoring
