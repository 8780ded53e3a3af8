import Ned.Editor.Grammar.InputGrammar
import Ned.Library.Fallible
import Ned.Library.GraphSearch
import Mathlib.Data.String.Basic

/-!
# What is used and what is refused

The rules that are kept, the orders of precedences that are accepted, and the grammars whose rules never
come back to themselves.
-/

namespace Ned.Editor.Grammar.Compile

open Library Relation

/-! ## Use -/

section Use

variable {rules : List (String × Rule)} {extras externals : List Rule}

/-- Another rule refers to a target. -/
def IsReferencedBy (rules : List (String × Rule)) (target name : String) : Prop :=
  ∃ rule, (name, rule) ∈ rules ∧ ruleIsReferenced target false rule = true

theorem variableIsUsed_succ {fuel : Nat} {inProgress : List String} {target : String} :
    variableIsUsed rules extras externals (fuel + 1) inProgress target = true ↔
      isRoot rules extras externals target = true ∨ ∃ name, IsReferencedBy rules target name ∧
        name ∉ target :: inProgress ∧
          variableIsUsed rules extras externals fuel (target :: inProgress) name = true := by
  rw [variableIsUsed, Bool.or_eq_true, List.any_eq_true]
  refine or_congr_right ⟨?_, ?_⟩
  · rintro ⟨⟨name, rule⟩, hmem, h⟩
    simp only [Bool.and_eq_true, Bool.not_eq_true', List.contains_eq_mem, decide_eq_false_iff_not] at h
    exact ⟨name, ⟨rule, hmem, h.1.1.2⟩, h.1.2, h.2⟩
  · rintro ⟨name, ⟨rule, hmem, href⟩, hnew, hused⟩
    refine ⟨(name, rule), hmem, ?_⟩
    have hne : name ≠ target := fun heq => hnew (heq ▸ List.mem_cons_self)
    simp only [Bool.and_eq_true, Bool.not_eq_true', List.contains_eq_mem, decide_eq_false_iff_not,
      bne_iff_ne]
    exact ⟨⟨⟨hne, href⟩, hnew⟩, hused⟩

theorem variableIsUsed_sound {fuel : Nat} {inProgress : List String} {target : String}
    (h : variableIsUsed rules extras externals fuel inProgress target = true) :
    ∃ name, ReflTransGen (IsReferencedBy rules) target name ∧
      isRoot rules extras externals name = true := by
  induction fuel generalizing inProgress target with
  | zero => cases h
  | succ fuel ih =>
      rcases variableIsUsed_succ.1 h with h | ⟨name, href, -, h⟩
      · exact ⟨target, .refl, h⟩
      · obtain ⟨root, hreach, hroot⟩ := ih h
        exact ⟨root, .head href hreach, hroot⟩

theorem countP_fresh_lt {inProgress : List String} {name : String} {rule : Rule}
    (hmem : (name, rule) ∈ rules) (hnew : name ∉ inProgress) :
    (rules.countP fun entry => !(name :: inProgress).contains entry.1) <
      rules.countP fun entry => !inProgress.contains entry.1 := by
  induction rules with
  | nil => cases hmem
  | cons first rest ih =>
      have hle : (rest.countP fun entry => !(name :: inProgress).contains entry.1) ≤
          rest.countP fun entry => !inProgress.contains entry.1 := by
        refine List.countP_mono_left fun entry _ h => ?_
        simp only [List.contains_cons, Bool.not_or, Bool.and_eq_true] at h
        exact h.2
      rw [List.countP_cons, List.countP_cons]
      rcases List.mem_cons.1 hmem with rfl | hmem
      · simpa [hnew] using Nat.lt_succ_of_le hle
      · have hlt := ih hmem
        by_cases hfirst : first.1 ∈ inProgress
        · simpa [hfirst] using hlt
        · by_cases hsame : first.1 = name
          · simpa [hsame, hnew] using Nat.lt_succ_of_le hle
          · simpa [hfirst, hsame] using hlt

theorem variableIsUsed_complete {fuel : Nat} {inProgress : List String} {target root : String}
    (hfuel : (rules.countP fun entry => !(target :: inProgress).contains entry.1) < fuel)
    (hreach : ReflTransGen (Avoids (IsReferencedBy rules) {name | name ∈ inProgress}) target root)
    (hroot : isRoot rules extras externals root = true) :
    variableIsUsed rules extras externals fuel inProgress target = true := by
  induction fuel generalizing inProgress target with
  | zero => exact absurd hfuel (Nat.not_lt_zero _)
  | succ fuel ih =>
      have hprogress : insert target {name | name ∈ inProgress} =
          {name | name ∈ target :: inProgress} := by
        ext name
        simp
      rw [variableIsUsed_succ]
      rcases avoids_start hreach with rfl | ⟨name, hstep, hreach⟩
      · exact .inl hroot
      · rw [hprogress] at hstep hreach
        obtain ⟨⟨rule, hmem, href⟩, hnew⟩ := hstep
        refine .inr ⟨name, ⟨rule, hmem, href⟩, hnew, ih ?_ hreach⟩
        exact (countP_fresh_lt hmem hnew).trans_le (Nat.le_of_lt_succ hfuel)

/-- A rule counts as used exactly when a chain of references leads from it to the first rule, an extra or
an external token. -/
theorem variableIsUsed_iff (rules : List (String × Rule)) (extras externals : List Rule)
    (target : String) :
    variableIsUsed rules extras externals (rules.length + 1) [] target = true ↔
      ∃ name, ReflTransGen (IsReferencedBy rules) target name ∧
        isRoot rules extras externals name = true := by
  constructor
  · exact variableIsUsed_sound
  · rintro ⟨root, hreach, hroot⟩
    refine variableIsUsed_complete (Nat.lt_succ_of_le List.countP_le_length) ?_ hroot
    have hmono : IsReferencedBy rules ≤ Avoids (IsReferencedBy rules) {name | name ∈ ([] : List String)} :=
      fun a b hab => ⟨hab, List.not_mem_nil⟩
    exact ReflTransGen.mono hmono _ _ hreach

end Use

/-! ## Precedences -/

/-- An entry stands before another in one of the lists. -/
def IsBefore (orderings : List (List PrecedenceEntry)) (a b : PrecedenceEntry) : Prop :=
  ∃ ordering ∈ orderings, [a, b].Sublist ordering

/-- A rule and the rules it is made of, as far as no reserved context is around them. -/
inductive IsPart : Rule → Rule → Prop
  | refl (rule : Rule) : IsPart rule rule
  | choice {rule child : Rule} {children : List Rule} (h : child ∈ children) (hpart : IsPart rule child) :
      IsPart rule (.choice children)
  | seq {rule child : Rule} {children : List Rule} (h : child ∈ children) (hpart : IsPart rule child) :
      IsPart rule (.seq children)
  | «repeat» {rule child : Rule} (hpart : IsPart rule child) : IsPart rule (.repeat child)
  | metadata {rule child : Rule} {params : MetadataParams} (hpart : IsPart rule child) :
      IsPart rule (.metadata child params)

section Precedences

variable {pairs pairs' : PrecedencePairs} {a b c d : PrecedenceEntry}

theorem PrecedenceEntry.greater_asymm (hne : a ≠ b) : b.greater a = !a.greater b := by
  have htext : ∀ text text' : String, text ≠ text' → decide (text < text') = !decide (text' < text) := by
    intro text text' hne
    rcases lt_trichotomy text text' with h | h | h
    · simp [h, h.not_gt]
    · exact absurd h hne
    · simp [h, h.not_gt]
  cases a with
  | name text =>
      cases b with
      | name text' => exact htext text text' fun h => hne (congrArg _ h)
      | symbol text' => rfl
  | symbol text =>
      cases b with
      | name text' => rfl
      | symbol text' => exact htext text text' fun h => hne (congrArg _ h)

/-- That an entry comes before another is known. -/
def IsKnown (pairs : PrecedencePairs) (a b : PrecedenceEntry) : Prop :=
  pairs.lookup (pairOf a b) = some (!a.greater b)

theorem pairOf_comm (hne : a ≠ b) : pairOf b a = pairOf a b := by
  rw [pairOf, pairOf, PrecedenceEntry.greater_asymm hne]
  cases a.greater b <;> rfl

theorem pairOf_inj (h : pairOf a b = pairOf c d) (hflag : a.greater b = c.greater d) : a = c ∧ b = d := by
  rw [pairOf, pairOf, hflag] at h
  cases hcd : c.greater d <;> rw [hcd] at h <;> cases h <;> exact ⟨rfl, rfl⟩

theorem IsKnown.flag (h : IsKnown pairs a b) (hne : a ≠ b) (known : Bool)
    (hknown : pairs.lookup (pairOf b a) = some known) : known = b.greater a := by
  rw [pairOf_comm hne, show pairs.lookup (pairOf a b) = _ from h] at hknown
  cases hknown
  exact (PrecedenceEntry.greater_asymm hne).symm

theorem IsKnown.asymm (h : IsKnown pairs a b) (hne : a ≠ b) : ¬ IsKnown pairs b a := by
  intro h'
  have hflag := h.flag hne _ h'
  cases hb : b.greater a <;> rw [hb] at hflag <;> cases hflag

theorem orderPair_ok (hne : a ≠ b) (h : orderPair pairs a b = .ok pairs') :
    ∀ c d, IsKnown pairs' c d ↔ IsKnown pairs c d ∨ (c = a ∧ d = b) := by
  intro c d
  rw [orderPair, if_neg hne] at h
  split at h
  · rename_i hnone
    cases h
    rw [IsKnown, IsKnown, List.lookup_cons]
    by_cases hpair : pairOf c d = pairOf a b
    · rw [beq_iff_eq.2 hpair, hpair, hnone]
      constructor
      · intro hflag
        have hgreater : a.greater b = c.greater d := by simpa using hflag
        obtain ⟨rfl, rfl⟩ := pairOf_inj hpair.symm hgreater
        exact .inr ⟨rfl, rfl⟩
      · rintro (hsome | ⟨rfl, rfl⟩)
        · cases hsome
        · rfl
    · rw [beq_eq_false_iff_ne.2 hpair]
      refine ⟨.inl, fun h => h.resolve_right ?_⟩
      rintro ⟨rfl, rfl⟩
      exact hpair rfl
  · rename_i known hknown
    split at h
    · rename_i hflag
      cases h
      refine ⟨.inl, ?_⟩
      rintro (h | ⟨rfl, rfl⟩)
      · exact h
      · rw [IsKnown, hknown, hflag]
    · cases h

theorem orderPair_error {e : String} (h : orderPair pairs a b = .error e) :
    a ≠ b ∧ IsKnown pairs b a := by
  unfold orderPair at h
  split at h
  · cases h
  · rename_i hne
    refine ⟨hne, ?_⟩
    split at h
    · cases h
    · rename_i known hknown
      split at h
      · cases h
      · rename_i hflag
        rw [IsKnown, pairOf_comm hne, hknown, PrecedenceEntry.greater_asymm hne, Bool.not_not]
        refine congrArg some (Decidable.not_not.1 fun hne => hflag ?_)
        exact Bool.eq_not.2 hne

/-- The pairs of a list, in the order they are looked at. -/
def pairsOf : List PrecedenceEntry → List (PrecedenceEntry × PrecedenceEntry)
  | [] => []
  | entry :: entries => entries.map (Prod.mk entry) ++ pairsOf entries

theorem mem_pairsOf {entries : List PrecedenceEntry} :
    (a, b) ∈ pairsOf entries ↔ [a, b].Sublist entries := by
  induction entries with
  | nil => simp [pairsOf]
  | cons entry entries ih =>
      rw [pairsOf, List.mem_append, List.mem_map, ih, List.sublist_cons_iff]
      constructor
      · rintro (⟨other, hmem, heq⟩ | h)
        · cases heq
          exact .inr ⟨[b], rfl, List.singleton_sublist.2 hmem⟩
        · exact .inl h
      · rintro (h | ⟨rest, heq, h⟩)
        · exact .inr h
        · cases heq
          exact .inl ⟨b, List.singleton_sublist.1 h, rfl⟩

/-- Two entries are looked at in both orders. -/
def Conflicting (pairs : List (PrecedenceEntry × PrecedenceEntry)) : Prop :=
  ∃ a b, a ≠ b ∧ (a, b) ∈ pairs ∧ (b, a) ∈ pairs

theorem not_conflicting_iff {orderings : List (List PrecedenceEntry)} :
    ¬ Conflicting (orderings.flatMap pairsOf) ↔
      ∀ a b, a ≠ b → IsBefore orderings a b → ¬ IsBefore orderings b a := by
  have hmem : ∀ a b, (a, b) ∈ orderings.flatMap pairsOf ↔ IsBefore orderings a b := by
    intro a b
    rw [List.mem_flatMap]
    exact exists_congr fun ordering => and_congr_right fun _ => mem_pairsOf
  constructor
  · intro h a b hne hab hba
    exact h ⟨a, b, hne, (hmem a b).2 hab, (hmem b a).2 hba⟩
  · rintro h ⟨a, b, hne, hab, hba⟩
    exact h a b hne ((hmem a b).1 hab) ((hmem b a).1 hba)

theorem orderList_eq (entries : List PrecedenceEntry) (pairs : PrecedencePairs) :
    orderList pairs entries = (pairsOf entries).foldlM (fun pairs pair => orderPair pairs pair.1 pair.2) pairs := by
  induction entries generalizing pairs with
  | nil => rfl
  | cons entry entries ih =>
      rw [orderList, pairsOf, List.foldlM_append, List.foldlM_map]
      exact congrArg _ (funext ih)

theorem orderLists_eq (orderings : List (List PrecedenceEntry)) (pairs : PrecedencePairs) :
    orderings.foldlM orderList pairs =
      (orderings.flatMap pairsOf).foldlM (fun pairs pair => orderPair pairs pair.1 pair.2) pairs := by
  induction orderings generalizing pairs with
  | nil => rfl
  | cons ordering orderings ih =>
      rw [List.foldlM_cons, List.flatMap_cons, List.foldlM_append, orderList_eq]
      exact congrArg _ (funext ih)

/-- What is known of different entries is what has been looked at. -/
def Knows (pairs : PrecedencePairs) (seen : List (PrecedenceEntry × PrecedenceEntry)) : Prop :=
  ∀ a b, a ≠ b → (IsKnown pairs a b ↔ (a, b) ∈ seen)

section Knows

variable {seen : List (PrecedenceEntry × PrecedenceEntry)}

theorem Knows.not_conflicting (h : Knows pairs seen) : ¬ Conflicting seen := by
  rintro ⟨a, b, hne, hab, hba⟩
  exact ((h a b hne).2 hab).asymm hne ((h b a hne.symm).2 hba)

theorem Knows.pair (h : Knows pairs seen) (hpair : orderPair pairs a b = .ok pairs') :
    Knows pairs' (seen ++ [(a, b)]) := by
  intro c d hne
  rw [List.mem_append, List.mem_singleton, Prod.mk.injEq, ← h c d hne]
  by_cases hab : a = b
  · rw [orderPair, if_pos hab] at hpair
    cases hpair
    refine ⟨.inl, fun h => h.resolve_right ?_⟩
    rintro ⟨rfl, rfl⟩
    exact hne hab
  · exact orderPair_ok hab hpair c d

/-- What is looked at is known in the end, unless an order contradicts one before it. -/
theorem Knows.foldlM (h : Knows pairs seen) (todo : List (PrecedenceEntry × PrecedenceEntry)) :
    (∃ pairs', todo.foldlM (fun pairs pair => orderPair pairs pair.1 pair.2) pairs = .ok pairs') ↔
      ¬ Conflicting (seen ++ todo) := by
  induction todo generalizing pairs seen with
  | nil =>
      rw [List.append_nil]
      exact ⟨fun _ => h.not_conflicting, fun _ => ⟨pairs, rfl⟩⟩
  | cons pair todo ih =>
      obtain ⟨a, b⟩ := pair
      rw [List.foldlM_cons]
      cases hpair : orderPair pairs a b with
      | error e =>
          obtain ⟨hne, hknown⟩ := orderPair_error hpair
          have hmem := (h b a hne.symm).1 hknown
          constructor
          · rintro ⟨_, h⟩
            cases h
          · intro h
            refine absurd ⟨a, b, hne, ?_, ?_⟩ h
            · exact List.mem_append_right _ List.mem_cons_self
            · exact List.mem_append_left _ hmem
      | ok pairs' =>
          have hrest := ih (h.pair hpair)
          rw [List.append_assoc] at hrest
          exact hrest

end Knows

/-- The named precedences of a rule are declared. -/
def IsDeclared (names : List String) (rule : Rule) : Prop :=
  ∀ child params name, IsPart (.metadata child params) rule → params.precedence = .name name → name ∈ names

section Declared

variable {names : List String} {children : List Rule} {child : Rule} {params : MetadataParams}

theorem isDeclared_choice :
    IsDeclared names (.choice children) ↔ ∀ child ∈ children, IsDeclared names child := by
  constructor
  · exact fun h child hmem inner params name hpart => h inner params name (.choice hmem hpart)
  · intro h inner params name hpart
    cases hpart with
    | choice hmem hpart => exact h _ hmem inner params name hpart

theorem isDeclared_seq :
    IsDeclared names (.seq children) ↔ ∀ child ∈ children, IsDeclared names child := by
  constructor
  · exact fun h child hmem inner params name hpart => h inner params name (.seq hmem hpart)
  · intro h inner params name hpart
    cases hpart with
    | seq hmem hpart => exact h _ hmem inner params name hpart

theorem isDeclared_repeat : IsDeclared names (.repeat child) ↔ IsDeclared names child := by
  constructor
  · exact fun h inner params name hpart => h inner params name (.repeat hpart)
  · intro h inner params name hpart
    cases hpart with
    | «repeat» hpart => exact h inner params name hpart

theorem isDeclared_metadata : IsDeclared names (.metadata child params) ↔
    (∀ name, params.precedence = .name name → name ∈ names) ∧ IsDeclared names child := by
  constructor
  · intro h
    refine ⟨fun name => h child params name (.refl _), fun inner params name hpart => ?_⟩
    exact h inner params name (.metadata hpart)
  · rintro ⟨hname, hchild⟩ inner params name hpart
    cases hpart with
    | refl => exact hname name
    | metadata hpart => exact hchild inner params name hpart

theorem Rule.both {P : Rule → Prop} {Q : List Rule → Prop} (blank : P .blank)
    (string : ∀ text, P (.string text)) (pattern : ∀ text flags, P (.pattern text flags))
    (namedSymbol : ∀ text, P (.namedSymbol text)) (symbol : ∀ s, P (.symbol s))
    (choice : ∀ children, Q children → P (.choice children))
    (metadata : ∀ child params, P child → P (.metadata child params))
    («repeat» : ∀ child, P child → P (.repeat child)) (seq : ∀ children, Q children → P (.seq children))
    (reserved : ∀ child name, P child → P (.reserved child name)) (nil : Q [])
    (cons : ∀ rule rules, P rule → Q rules → Q (rule :: rules)) : (∀ rule, P rule) ∧ ∀ rules, Q rules :=
  ⟨@Rule.rec P Q blank string pattern namedSymbol symbol choice metadata «repeat» seq reserved nil cons,
    @Rule.rec_1 P Q blank string pattern namedSymbol symbol choice metadata «repeat» seq reserved nil cons⟩

theorem validateRule_iff {ruleName : String} :
    (∀ rule : Rule, validateRule names ruleName rule = .ok () ↔ IsDeclared names rule) ∧
      ∀ rules : List Rule, validateRules names ruleName rules = .ok () ↔
        ∀ rule ∈ rules, IsDeclared names rule := by
  have hleaf : ∀ rule : Rule, (∀ child params, ¬ IsPart (.metadata child params) rule) →
      IsDeclared names rule := fun rule h child params name hpart => absurd hpart (h child params)
  apply Rule.both
  case choice => exact fun children ih => ih.trans isDeclared_choice.symm
  case seq => exact fun children ih => ih.trans isDeclared_seq.symm
  case «repeat» => exact fun child ih => ih.trans isDeclared_repeat.symm
  case metadata =>
    intro child params ih
    rw [isDeclared_metadata, ← ih, validateRule]
    split
    · rename_i name hname
      have hnames : (∀ other, params.precedence = .name other → other ∈ names) ↔ name ∈ names := by
        rw [hname]
        refine ⟨fun h => h name rfl, fun h other heq => ?_⟩
        cases heq
        exact h
      rw [hnames]
      split
      · rename_i hmem
        exact (and_iff_right (List.contains_iff_mem.1 hmem)).symm
      · rename_i hmem
        exact iff_of_false (fun h => by cases h) fun h => hmem (List.contains_iff_mem.2 h.1)
    · rename_i hnone
      exact (and_iff_right fun name hname => absurd hname (hnone name)).symm
  case nil => exact iff_of_true rfl (List.forall_mem_nil _)
  case cons =>
    intro rule rules ih ihs
    rw [List.forall_mem_cons, ← ih, ← ihs, validateRules]
    constructor
    · intro h
      obtain ⟨⟨⟩, hrule, hrules⟩ := bind_eq_ok.1 h
      exact ⟨hrule, hrules⟩
    · exact fun h => bind_eq_ok.2 ⟨(), h.1, h.2⟩
  all_goals
    intros
    refine iff_of_true rfl (hleaf _ ?_)
    intro child params hpart
    cases hpart

end Declared

/-- The precedences of a grammar are accepted exactly when no two entries are ordered both ways by its
lists, and its rules name only entries of the lists. -/
theorem validatePrecedences_iff (grammar : InputGrammar) :
    validatePrecedences grammar = .ok () ↔
      (∀ a b, a ≠ b → IsBefore grammar.precedenceOrderings a b →
        ¬ IsBefore grammar.precedenceOrderings b a) ∧
      ∀ var ∈ grammar.variables, IsDeclared (declaredPrecedences grammar) var.rule := by
  have hnone : Knows [] [] := fun a b _ => iff_of_false (fun h => by cases h) List.not_mem_nil
  have horder := hnone.foldlM (grammar.precedenceOrderings.flatMap pairsOf)
  rw [List.nil_append, ← orderLists_eq, not_conflicting_iff] at horder
  have hrules : (grammar.variables.forM fun var =>
      validateRule (declaredPrecedences grammar) var.name var.rule) = .ok () ↔
        ∀ var ∈ grammar.variables, IsDeclared (declaredPrecedences grammar) var.rule := by
    rw [forM_eq_ok]
    exact forall_congr' fun var => imp_congr_right fun _ => validateRule_iff.1 var.rule
  have hsplit : validatePrecedences grammar = .ok () ↔
      (∃ pairs, grammar.precedenceOrderings.foldlM orderList [] = .ok pairs) ∧
        (grammar.variables.forM fun var =>
          validateRule (declaredPrecedences grammar) var.name var.rule) = .ok () := by
    rw [validatePrecedences, bind_eq_ok]
    exact exists_and_right
  rw [hsplit, horder, hrules]

end Precedences

/-! ## Indirect recursion -/

section Recursion

variable {next : String → List String} {names : List String}

theorem findCycle_searches (hnames : ∀ a b, b ∈ next a → a ∈ names) {fuel : Nat}
    {path done visited : List String} {current : String} (hfuel : names.length < fuel + path.length)
    (hnodup : path.Nodup) (hpath : path ⊆ names)
    (hchain : (path ++ [current]).IsChain fun a b => b ∈ next a) (h : Visits next path done visited) :
    Searches next path done [current] (findCycle next fuel path visited current) := by
  induction fuel generalizing path done visited current with
  | zero =>
      have hlength := (List.subperm_of_subset hnodup hpath).length_le
      omega
  | succ fuel ih =>
      unfold findCycle
      split
      · rename_i hmem
        exact .of_cycle (isCycle_of_mem (List.contains_iff_mem.1 hmem) hchain)
      · rename_i hnew
        rw [List.contains_iff_mem] at hnew
        split
        · rename_i hmem
          refine .of_done h (List.cons_subset.2 ⟨?_, List.nil_subset _⟩)
          exact ((h.mem_iff current).1 (List.contains_iff_mem.1 hmem)).resolve_right hnew
        · rename_i hfresh
          rw [List.contains_iff_mem] at hfresh
          have hstep : ∀ name ∈ next current, ∀ visited' done',
              Visits next (path ++ [current]) done' visited' →
                Searches next (path ++ [current]) done' [name]
                  (findCycle next fuel (path ++ [current]) visited' name) := by
            intro name hname visited' done' hvisits
            refine ih ?_ ?_ ?_ ?_ hvisits
            · rw [List.length_append, List.length_singleton]
              omega
            · exact List.nodup_append_comm.1 (List.nodup_cons.2 ⟨hnew, hnodup⟩)
            · refine List.append_subset.2 ⟨hpath, ?_⟩
              exact List.cons_subset.2 ⟨hnames current name hname, List.nil_subset _⟩
            · refine hchain.append (.singleton _) fun a ha b hb => ?_
              rw [List.getLast?_concat] at ha
              cases ha
              cases hb
              exact hname
          have hall := searches_all hstep (h.enter hfresh)
          refine ⟨hall.cycle, fun last hlast => ?_⟩
          obtain ⟨done', hvisits, hmore, hwanted⟩ := hall.finished last hlast
          refine ⟨current :: done', hvisits.finish hwanted hnew, ?_, ?_⟩
          · exact List.Subset.trans hmore (List.subset_cons_self _ _)
          · exact List.cons_subset.2 ⟨List.mem_cons_self, List.nil_subset _⟩

end Recursion

/-- A rule may be replaced by another alone. -/
def IsTransition (grammar : InputGrammar) (name other : String) : Prop := other ∈ transitions grammar name

theorem exists_var_of_transition {grammar : InputGrammar} {name other : String}
    (h : other ∈ transitions grammar name) : ∃ var ∈ grammar.variables, var.name = name := by
  unfold transitions at h
  split at h
  · rename_i var hvar
    have hname := List.find?_some hvar
    exact ⟨var, List.mem_reverse.1 (List.mem_of_find?_eq_some hvar), eq_of_beq hname⟩
  · cases h

/-- A grammar is refused for indirect recursion exactly when a rule may come back to itself through other
rules that it may be replaced by alone. -/
theorem validateIndirectRecursion_iff (grammar : InputGrammar) :
    validateIndirectRecursion grammar = .ok () ↔
      ∀ name, ¬ TransGen (IsTransition grammar) name name := by
  have hnames : ∀ a b, b ∈ transitions grammar a → a ∈ grammar.variables.map (·.name) := by
    intro a b hab
    obtain ⟨var, hmem, hname⟩ := exists_var_of_transition hab
    exact List.mem_map.2 ⟨var, hmem, hname⟩
  have hsearch : ∀ name, Searches (transitions grammar) [] [] [name]
      (findCycle (transitions grammar) (grammar.variables.length + 1) [] [] name) := by
    intro name
    refine findCycle_searches hnames ?_ List.nodup_nil (List.nil_subset _) (.singleton _) ?_
    · rw [List.length_map]
      exact Nat.lt_succ_self _
    · exact ⟨.nil, by simp, fun a ha => by cases ha⟩
  rw [validateIndirectRecursion, forM_eq_ok]
  constructor
  · intro h name hcycle
    obtain ⟨other, hstep, -⟩ := TransGen.head'_iff.1 hcycle
    obtain ⟨var, hmem, rfl⟩ := exists_var_of_transition hstep
    have hvar := h var hmem
    cases hresult : findCycle (transitions grammar) (grammar.variables.length + 1) [] [] var.name with
    | error cycle =>
        rw [hresult] at hvar
        cases hvar
    | ok visited =>
        obtain ⟨done, hvisits, -, hwanted⟩ := (hsearch var.name).finished visited hresult
        exact hvisits.finished.acyclic (List.cons_subset.1 hwanted).1 hcycle
  · intro h var hmem
    cases hresult : findCycle (transitions grammar) (grammar.variables.length + 1) [] [] var.name with
    | error cycle =>
        obtain ⟨name, hcycle⟩ := ((hsearch var.name).cycle cycle hresult).transGen
        exact absurd hcycle (h name)
    | ok visited => rfl

end Ned.Editor.Grammar.Compile
