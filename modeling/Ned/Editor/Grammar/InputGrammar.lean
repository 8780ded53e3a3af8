import Ned.Editor.Grammar.Assembler

/-!
# Input grammars

The rules a grammar file gives, by name: which of them are used, and what is refused of them.
-/

namespace Ned.Editor.Grammar.Compile

inductive Associativity
  | left
  | right
  deriving DecidableEq

structure Alias where
  value : String
  named : Bool := false
  deriving DecidableEq

inductive Precedence
  | none
  | integer (value : Int)
  | name (name : String)
  deriving DecidableEq

structure MetadataParams where
  precedence : Precedence := .none
  dynamicPrecedence : Int := 0
  associativity : Option Associativity := none
  isToken : Bool := false
  isMainToken : Bool := false
  «alias» : Option Alias := none
  fieldName : Option String := none
  deriving DecidableEq

/-- The rule tree. -/
inductive Rule
  | blank
  | string (text : String)
  | pattern (text flags : String)
  | namedSymbol (text : String)
  | symbol (symbol : Symbol)
  | choice (children : List Rule)
  | metadata (child : Rule) (params : MetadataParams)
  | «repeat» (child : Rule)
  | seq (children : List Rule)
  | reserved (child : Rule) (contextName : String)

inductive VariableType
  | hidden
  | auxiliary
  | anonymous
  | named
  deriving DecidableEq

structure Variable where
  name : String
  kind : VariableType := .named
  rule : Rule

inductive PrecedenceEntry
  | name (text : String)
  | symbol (text : String)
  deriving DecidableEq

structure ReservedWordContext (T : Type) where
  name : String
  reservedWords : List T := []

structure InputGrammar where
  «variables» : List Variable
  extraSymbols : List Rule := []
  expectedConflicts : List (List String) := []
  precedenceOrderings : List (List PrecedenceEntry) := []
  externalTokens : List Rule := []
  variablesToInline : List String := []
  supertypeSymbols : List String := []
  wordToken : Option String := none
  reservedWords : List (ReservedWordContext Rule) := []

/-! ## Use -/

mutual

def ruleIsReferenced (target : String) (isExternal : Bool) : Rule → Bool
  | .namedSymbol text => text == target && !isExternal
  | .choice children => areReferenced target children
  | .seq children => areReferenced target children
  | .metadata child _ => ruleIsReferenced target isExternal child
  | .reserved child _ => ruleIsReferenced target isExternal child
  | .repeat child => ruleIsReferenced target false child
  | _ => false

def areReferenced (target : String) : List Rule → Bool
  | [] => false
  | rule :: rules => ruleIsReferenced target false rule || areReferenced target rules

end

/-- What is used whatever other rules do: the first rule, and what extras and external tokens refer
to. -/
def isRoot (rules : List (String × Rule)) (extras externals : List Rule) (target : String) : Bool :=
  (rules.head?.any fun entry => entry.1 == target) || extras.any (ruleIsReferenced target false) ||
    externals.any (ruleIsReferenced target true)

/-- `VariableIsUsed`, where at most `fuel` rules are in progress. -/
def variableIsUsed (rules : List (String × Rule)) (extras externals : List Rule) :
    Nat → List String → String → Bool
  | 0, _, _ => false
  | fuel + 1, inProgress, target =>
      isRoot rules extras externals target ||
        rules.any fun (name, rule) =>
          name != target && ruleIsReferenced target false rule &&
            !(target :: inProgress).contains name &&
              variableIsUsed rules extras externals fuel (target :: inProgress) name

/-! ## Validation -/

def PrecedenceEntry.toText : PrecedenceEntry → String
  | .name text => "'" ++ text ++ "'"
  | .symbol text => "$." ++ text

/-- `>` of entries: names come before symbols. -/
def PrecedenceEntry.greater : PrecedenceEntry → PrecedenceEntry → Bool
  | .name text, .name text' => text' < text
  | .symbol text, .symbol text' => text' < text
  | .symbol _, .name _ => true
  | .name _, .symbol _ => false

/-- Which of two entries is the greater, by the lists looked at so far. -/
abbrev PrecedencePairs := List ((PrecedenceEntry × PrecedenceEntry) × Bool)

/-- The pair that two entries are known by. -/
def pairOf (a b : PrecedenceEntry) : PrecedenceEntry × PrecedenceEntry :=
  if a.greater b then (b, a) else (a, b)

def orderPair (pairs : PrecedencePairs) (a b : PrecedenceEntry) : Except String PrecedencePairs :=
  if a = b then
    .ok pairs
  else
    match pairs.lookup (pairOf a b) with
    | none => .ok ((pairOf a b, !a.greater b) :: pairs)
    | some known =>
        if known = !a.greater b then
          .ok pairs
        else
          .error ("Conflicting orderings for precedences " ++ (pairOf a b).1.toText ++ " and " ++
            (pairOf a b).2.toText)

def orderList (pairs : PrecedencePairs) : List PrecedenceEntry → Except String PrecedencePairs
  | [] => .ok pairs
  | entry :: entries => do
      let pairs ← entries.foldlM (fun pairs other => orderPair pairs entry other) pairs
      orderList pairs entries

def declaredPrecedences (grammar : InputGrammar) : List String :=
  grammar.precedenceOrderings.flatten.filterMap fun entry =>
    match entry with
    | .name text => some text
    | .symbol _ => none

mutual

def validateRule (names : List String) (ruleName : String) : Rule → Except String Unit
  | .repeat child => validateRule names ruleName child
  | .seq children => validateRules names ruleName children
  | .choice children => validateRules names ruleName children
  | .metadata child params =>
      match params.precedence with
      | .name name =>
          if names.contains name then
            validateRule names ruleName child
          else
            .error ("Undeclared precedence '" ++ name ++ "' in rule '" ++ ruleName ++ "'")
      | _ => validateRule names ruleName child
  | _ => .ok ()

def validateRules (names : List String) (ruleName : String) : List Rule → Except String Unit
  | [] => .ok ()
  | rule :: rules => do
      validateRule names ruleName rule
      validateRules names ruleName rules

end

def validatePrecedences (grammar : InputGrammar) : Except String Unit := do
  let _ ← grammar.precedenceOrderings.foldlM orderList []
  grammar.variables.forM fun var => validateRule (declaredPrecedences grammar) var.name var.rule

mutual

def singleSymbolProductions : Rule → List String
  | .namedSymbol text => [text]
  | .choice children => singleSymbolProductionsOfAll children
  | .metadata child _ => singleSymbolProductions child
  | _ => []

def singleSymbolProductionsOfAll : List Rule → List String
  | [] => []
  | rule :: rules => singleSymbolProductions rule ++ singleSymbolProductionsOfAll rules

end

/-- The names a rule may be replaced by alone, in the order of the set. -/
def transitions (grammar : InputGrammar) (name : String) : List String :=
  match grammar.variables.reverse.find? fun var => var.name == name with
  | some var =>
      (((singleSymbolProductions var.rule).filter fun other => other != name).mergeSort
        fun a b => a ≤ b).dedup
  | none => []

/-- The search for a cycle on from a name, with the names on the way to it: what was visited by the end,
or the cycle. At most `fuel` names are on the way. -/
def findCycle (next : String → List String) : Nat → List String → List String → String →
    Except (List String) (List String)
  | 0, _, visited, _ => .ok visited
  | fuel + 1, path, visited, current =>
      if path.contains current then
        .error ((path.dropWhile fun name => name != current) ++ [current])
      else if visited.contains current then
        .ok visited
      else
        (next current).foldlM (fun visited name => findCycle next fuel (path ++ [current]) visited name)
          (current :: visited)

def validateIndirectRecursion (grammar : InputGrammar) : Except String Unit :=
  grammar.variables.forM fun var =>
    match findCycle (transitions grammar) (grammar.variables.length + 1) [] [] var.name with
    | .error path =>
        .error ("Grammar contains an indirectly recursive rule: " ++ " -> ".intercalate path)
    | .ok _ => .ok ()

end Ned.Editor.Grammar.Compile
