import Ned.Library.MeasuredTree
import Mathlib.Algebra.Group.Nat.Defs
import Mathlib.Data.List.Forall2

/-!
# Lemmas on measured trees

Every operation of `MeasuredTree` is described by what its trees denote. The proofs of the joining
operations never look at depths: whichever rotation is chosen, the sequence stays.
-/

namespace Ned.Library.MeasuredTree

variable {m : Type → Type} {μ α β : Type} [Add μ] [Monad m]
variable {M : Measure μ β} {view : μ → α → m (List β)} {start : β → Bool}

/-! ## Cuts -/

theorem Starts.ne_nil {s : List β} (h : Starts start s) : s ≠ [] := by
  obtain ⟨c, u, rfl, _⟩ := h
  exact List.cons_ne_nil c u

theorem Starts.append {s t : List β} (h : Starts start s) : Starts start (s ++ t) := by
  obtain ⟨c, u, rfl, hc⟩ := h
  exact ⟨c, u ++ t, rfl, hc⟩

theorem Starts.cut_zero {s : List β} (h : Starts start s) : Cut start s 0 := by
  obtain ⟨c, u, rfl, hc⟩ := h
  intro c' hc'
  simp only [List.getElem?_cons_zero, Option.some.injEq] at hc'
  exact hc' ▸ hc

theorem Cut.of_length_le {s : List β} {o : Nat} (h : s.length ≤ o) : Cut start s o := by
  intro c hc
  rw [List.getElem?_eq_none h] at hc
  cases hc

theorem Cut.left {s t : List β} {o : Nat} (h : Cut start (s ++ t) o) : Cut start s o := by
  intro c hc
  have ho : o < s.length := (List.getElem?_eq_some_iff.1 hc).1
  exact h c (by rw [List.getElem?_append_left ho]; exact hc)

theorem Cut.right {s t : List β} {o : Nat} (h : Cut start (s ++ t) o) (ho : s.length ≤ o) :
    Cut start t (o - s.length) := by
  intro c hc
  exact h c (by rw [List.getElem?_append_right ho]; exact hc)

theorem Cut.drop_starts {s : List β} {o : Nat} (h : Cut start s o) (ho : o < s.length) :
    Starts start (s.drop o) := by
  refine ⟨s[o], s.drop (o + 1), List.drop_eq_getElem_cons ho, h _ (List.getElem?_eq_getElem ho)⟩

theorem Starts.take {s : List β} {o : Nat} (h : Starts start s) (ho : 0 < o) :
    Starts start (s.take o) := by
  obtain ⟨c, u, rfl, hc⟩ := h
  obtain ⟨o, rfl⟩ : ∃ o', o = o' + 1 := ⟨o - 1, by omega⟩
  exact ⟨c, u.take o, rfl, hc⟩

/-! ## What a denoting tree caches -/

theorem Denotes.measure_eq {t : MeasuredTree μ α} {s : List β} (h : Denotes M view start t s) :
    t.measure = M.of s := by
  induction h with
  | leaf _ hms _ => exact hms
  | node _ _ ihl ihr => simp only [measure_node, ihl, ihr, M.of_append]

theorem Denotes.size_eq {t : MeasuredTree μ α} {s : List β} (h : Denotes M view start t s) :
    M.size t.measure = s.length := by
  rw [h.measure_eq, M.size_of]

theorem Denotes.starts {t : MeasuredTree μ α} {s : List β} (h : Denotes M view start t s) :
    Starts start s := by
  induction h with
  | leaf _ _ hs => exact hs
  | node _ _ ihl _ => exact ihl.append

theorem Denotes.mono {m' : Type → Type} [Monad m'] {t : MeasuredTree μ α} {s : List β}
    {view' : μ → α → m' (List β)} {start' : β → Bool} (h : Denotes M view start t s)
    (hview : ∀ ms a u, view ms a = pure u → view' ms a = pure u)
    (hstart : ∀ c, start c = true → start' c = true) : Denotes M view' start' t s := by
  induction h with
  | leaf hv hms hs =>
      obtain ⟨c, u, rfl, hc⟩ := hs
      exact .leaf (hview _ _ _ hv) hms ⟨c, u, rfl, hstart c hc⟩
  | node _ _ ihl ihr => exact .node ihl ihr

theorem DenotesOpt.mono {m' : Type → Type} [Monad m'] {t : Option (MeasuredTree μ α)}
    {s : List β} {view' : μ → α → m' (List β)} {start' : β → Bool} (h : DenotesOpt M view start t s)
    (hview : ∀ ms a u, view ms a = pure u → view' ms a = pure u)
    (hstart : ∀ c, start c = true → start' c = true) : DenotesOpt M view' start' t s := by
  cases t with
  | none => exact h
  | some t => exact Denotes.mono h hview hstart

theorem Denotes.leaves_eq [LawfulMonad m] {t : MeasuredTree μ α} {s : List β}
    (h : Denotes M view start t s) :
    ∃ pieces : List (List β), t.leaves.mapM (fun leaf => view leaf.1 leaf.2) = pure pieces ∧
      pieces.flatten = s ∧ ∀ p ∈ pieces, Starts start p := by
  induction h with
  | @leaf ms a s hv _ hs =>
      refine ⟨[s], ?_, by simp, by simpa using hs⟩
      simp only [leaves, List.mapM_cons, List.mapM_nil, hv, pure_bind]
  | @node l r s t _ _ ihl ihr =>
      obtain ⟨ps, hps, rfl, hsp⟩ := ihl
      obtain ⟨qs, hqs, rfl, hsq⟩ := ihr
      refine ⟨ps ++ qs, ?_, List.flatten_append, ?_⟩
      · simp only [leaves, List.mapM_append, hps, hqs, pure_bind]
      · intro p hp
        rcases List.mem_append.1 hp with hp | hp
        · exact hsp p hp
        · exact hsq p hp

/-! ## Joining -/

theorem Denotes.mk {l r : MeasuredTree μ α} {s t : List β} (hl : Denotes M view start l s)
    (hr : Denotes M view start r t) : Denotes M view start (mk l r) (s ++ t) :=
  .node hl hr

theorem Denotes.rotateLeft {t : MeasuredTree μ α} {s : List β} (h : Denotes M view start t s) :
    Denotes M view start (rotateLeft t) s := by
  cases h with
  | leaf hv hms hs => exact .leaf hv hms hs
  | node hl hr =>
      cases hr with
      | leaf hv hms hs => exact .node hl (.leaf hv hms hs)
      | node hpl hpr =>
          rw [← List.append_assoc]
          exact (hl.mk hpl).mk hpr

theorem Denotes.rotateRight {t : MeasuredTree μ α} {s : List β} (h : Denotes M view start t s) :
    Denotes M view start (rotateRight t) s := by
  cases h with
  | leaf hv hms hs => exact .leaf hv hms hs
  | node hl hr =>
      cases hl with
      | leaf hv hms hs => exact .node (.leaf hv hms hs) hr
      | node hpl hpr =>
          rw [List.append_assoc]
          exact hpl.mk (hpr.mk hr)

theorem Denotes.rebalance {t : MeasuredTree μ α} {s : List β} (h : Denotes M view start t s) :
    Denotes M view start (rebalance t) s := by
  cases h with
  | leaf hv hms hs => exact .leaf hv hms hs
  | node hl hr =>
      simp only [MeasuredTree.rebalance]
      split
      · split
        · exact (hl.rotateLeft.mk hr).rotateRight
        · exact (Denotes.node hl hr).rotateRight
      · split
        · split
          · exact (hl.mk hr.rotateRight).rotateLeft
          · exact (Denotes.node hl hr).rotateLeft
        · exact .node hl hr

theorem Denotes.join {l r : MeasuredTree μ α} {s t : List β} (hl : Denotes M view start l s)
    (hr : Denotes M view start r t) : Denotes M view start (join l r) (s ++ t) := by
  fun_induction MeasuredTree.join l r generalizing s t with
  | case1 r ms d ll lr hdeep ih =>
      cases hl with
      | node hll hlr =>
          rw [List.append_assoc]
          exact (hll.mk (ih hlr hr)).rebalance
  | case2 r ms a hdeep => exact hl.mk hr
  | case3 l ms d rl rr hl' hdeep ih =>
      cases hr with
      | node hrl hrr =>
          rw [← List.append_assoc]
          exact ((ih hl hrl).mk hrr).rebalance
  | case4 l ms a hl' hdeep => exact hl.mk hr
  | case5 l r hl' hr' => exact hl.mk hr

theorem DenotesOpt.concat {l r : Option (MeasuredTree μ α)} {s t : List β}
    (hl : DenotesOpt M view start l s) (hr : DenotesOpt M view start r t) :
    DenotesOpt M view start (concat l r) (s ++ t) := by
  cases l with
  | none =>
      cases hl
      exact hr
  | some l =>
      cases r with
      | none =>
          cases hr
          rw [List.append_nil]
          exact hl
      | some r => exact Denotes.join hl hr

theorem DenotesOpt.makeInternal {l r : Option (MeasuredTree μ α)} {s t : List β}
    (hl : DenotesOpt M view start l s) (hr : DenotesOpt M view start r t) :
    DenotesOpt M view start (makeInternal l r) (s ++ t) := by
  cases l with
  | none =>
      cases hl
      exact hr
  | some l =>
      cases r with
      | none =>
          cases hr
          rw [List.append_nil]
          exact hl
      | some r => exact Denotes.mk hl hr

abbrev DenotesAll (M : Measure μ β) (view : μ → α → m (List β)) (start : β → Bool)
    (ts : List (Option (MeasuredTree μ α))) (pieces : List (List β)) : Prop :=
  List.Forall₂ (DenotesOpt M view start) ts pieces

theorem DenotesAll.pairUp : ∀ {ts : List (Option (MeasuredTree μ α))} {pieces : List (List β)},
    DenotesAll M view start ts pieces →
      ∃ pieces', DenotesAll M view start (pairUp ts) pieces' ∧ pieces'.flatten = pieces.flatten
  | [], _, .nil => ⟨[], .nil, rfl⟩
  | [_], _, .cons h .nil => ⟨_, .cons h .nil, rfl⟩
  | _ :: _ :: _, _, .cons (b := s) h (.cons (b := t) h' hs) => by
      obtain ⟨pieces', hp, heq⟩ := DenotesAll.pairUp hs
      refine ⟨(s ++ t) :: pieces', .cons (h.makeInternal h') hp, ?_⟩
      simp only [List.flatten_cons, heq, List.append_assoc]

theorem DenotesAll.buildBalanced {ts : List (Option (MeasuredTree μ α))}
    {pieces : List (List β)} (h : DenotesAll M view start ts pieces) :
    DenotesOpt M view start (buildBalanced ts) pieces.flatten := by
  fun_induction MeasuredTree.buildBalanced ts generalizing pieces with
  | case1 ts hlen ih =>
      obtain ⟨pieces', hp, heq⟩ := h.pairUp
      rw [← heq]
      exact ih hp
  | case2 ts hlen =>
      cases h with
      | nil => rfl
      | cons h hs =>
          cases hs with
          | nil => simpa using h
          | cons _ _ => simp at hlen

/-! ## Splitting -/

/-- Splitting a leaf at an inner cut reads it and yields both pieces. -/
def SplitsLeaves (M : Measure μ β) (view : μ → α → m (List β)) (start : β → Bool)
    (splitLeaf : μ → α → Nat → m (Option (MeasuredTree μ α) × Option (MeasuredTree μ α))) : Prop :=
  ∀ ms a u o, view ms a = pure u → ms = M.of u → Starts start u → Cut start u o →
    0 < o → o < u.length →
      ∃ l r, splitLeaf ms a o = pure (l, r) ∧ DenotesOpt M view start l (u.take o) ∧
        DenotesOpt M view start r (u.drop o)

theorem Denotes.split [LawfulMonad m]
    {splitLeaf : μ → α → Nat → m (Option (MeasuredTree μ α) × Option (MeasuredTree μ α))}
    (hleaf : SplitsLeaves M view start splitLeaf) {t : MeasuredTree μ α} {s : List β} {o : Nat}
    (h : Denotes M view start t s) (ho : Cut start s o) :
    ∃ l r, split M.size splitLeaf t o = pure (l, r) ∧ DenotesOpt M view start l (s.take o) ∧
      DenotesOpt M view start r (s.drop o) := by
  induction h generalizing o with
  | @leaf ms a s hv hms hs =>
      have hsize : M.size ms = s.length := by rw [hms, M.size_of]
      cases o with
      | zero => exact ⟨none, _, rfl, rfl, .leaf hv hms hs⟩
      | succ o =>
          simp only [MeasuredTree.split, hsize]
          split
          · rename_i hge
            refine ⟨_, none, rfl, ?_, List.drop_eq_nil_of_le hge⟩
            rw [List.take_of_length_le hge]
            exact .leaf hv hms hs
          · exact hleaf ms a s (o + 1) hv hms hs ho (by omega) (by omega)
  | @node l r s t hl hr ihl ihr =>
      have hsize : M.size (l.measure + r.measure) = (s ++ t).length :=
        (Denotes.node hl hr).size_eq
      cases o with
      | zero => exact ⟨none, _, rfl, rfl, .node hl hr⟩
      | succ o =>
          simp only [MeasuredTree.split, hsize, hl.size_eq]
          split
          · rename_i hge
            refine ⟨_, none, rfl, ?_, List.drop_eq_nil_of_le hge⟩
            rw [List.take_of_length_le hge]
            exact .node hl hr
          · split
            · rename_i hlt
              obtain ⟨ll, lr, heq, hll, hlr⟩ := ihl ho.left
              refine ⟨ll, concat lr (some r), by simp only [heq, pure_bind], ?_, ?_⟩
              · rw [List.take_append_of_le_length (by omega)]
                exact hll
              · rw [List.drop_append_of_le_length (by omega)]
                exact hlr.concat (r := some r) hr
            · split
              · rename_i hgt
                obtain ⟨rl, rr, heq, hrl, hrr⟩ := ihr (ho.right (by omega))
                refine ⟨concat (some l) rl, rr, by simp only [heq, pure_bind], ?_, ?_⟩
                · rw [List.take_append, List.take_of_length_le (by omega)]
                  exact DenotesOpt.concat (l := some l) hl hrl
                · rw [List.drop_append, List.drop_eq_nil_of_le (by omega), List.nil_append]
                  exact hrr
              · have hlen : o + 1 = s.length := by omega
                refine ⟨some l, some r, rfl, ?_, ?_⟩
                · rw [hlen, List.take_left]
                  exact hl
                · rw [hlen, List.drop_left]
                  exact hr

/-! ## Queries -/

theorem Denotes.toList [LawfulMonad m] {t : MeasuredTree μ α} {s : List β}
    (h : Denotes M view start t s) : toList view t = pure s := by
  induction h with
  | leaf hv _ _ => exact hv
  | node _ _ ihl ihr => simp only [MeasuredTree.toList, ihl, ihr, pure_bind]

theorem Denotes.count_eq {t : MeasuredTree μ α} {s : List β} (C : M.Counter)
    (h : Denotes M view start t s) : C.count t.measure = s.countP C.holds := by
  rw [h.measure_eq, C.count_of]

theorem Denotes.countBefore [LawfulMonad m] {t : MeasuredTree μ α} {s : List β} (C : M.Counter)
    (h : Denotes M view start t s) (o : Nat) :
    countBefore view M.size C.count C.holds t o = pure ((s.take o).countP C.holds) := by
  induction h generalizing o with
  | @leaf ms a s hv hms hs =>
      cases o with
      | zero => rfl
      | succ o =>
          have hsize : M.size ms = s.length := by rw [hms, M.size_of]
          simp only [MeasuredTree.countBefore, hv, pure_bind, hsize]
          rw [← List.take_take, List.take_of_length_le (Nat.le_refl s.length)]
  | @node l r s t hl hr ihl ihr =>
      cases o with
      | zero => rfl
      | succ o =>
          simp only [MeasuredTree.countBefore, hl.size_eq]
          split
          · rename_i hle
            rw [ihl, List.take_append_of_le_length hle]
          · rename_i hgt
            rw [ihr, pure_bind, hl.count_eq C, List.take_append,
              List.take_of_length_le (by omega : s.length ≤ o + 1), List.countP_append]

/-- The position a scan finds, the end of the sequence when it finds none. -/
def scanTo (scan : Nat → List β → Option Nat) (k : Nat) (s : List β) : Nat :=
  (scan k s).getD s.length

/-- A scan may skip a prefix that holds too few of the counted elements. -/
def ScanSplits (C : M.Counter) (start : β → Bool) (scan : Nat → List β → Option Nat) : Prop :=
  ∀ k s t, 0 < k → Starts start t →
    scanTo scan k (s ++ t) =
      if s.countP C.holds ≥ k then scanTo scan k s
      else s.length + scanTo scan (k - s.countP C.holds) t

theorem Denotes.find [LawfulMonad m] {t : MeasuredTree μ α} {s : List β} (C : M.Counter)
    {scan : Nat → List β → Option Nat} (hscan : ScanSplits C start scan)
    (h : Denotes M view start t s) {k : Nat} (hk : 0 < k) :
    find view M.size C.count scan t k = pure (scanTo scan k s) := by
  induction h generalizing k with
  | @leaf ms a s hv hms hs =>
      obtain ⟨k, rfl⟩ : ∃ k', k = k' + 1 := ⟨k - 1, by omega⟩
      have hsize : M.size ms = s.length := by rw [hms, M.size_of]
      simp only [MeasuredTree.find, hv, pure_bind, hsize, scanTo]
  | @node l r s t hl hr ihl ihr =>
      obtain ⟨k, rfl⟩ : ∃ k', k = k' + 1 := ⟨k - 1, by omega⟩
      simp only [MeasuredTree.find, hl.count_eq C]
      rw [hscan (k + 1) s t hk hr.starts]
      split
      · exact ihl hk
      · rw [ihr (by omega), pure_bind, hl.size_eq]

theorem Denotes.find_count [LawfulMonad m] {t : MeasuredTree μ α} {s : List β} (C : M.Counter)
    {scan : Nat → List β → Option Nat}
    (hscan : ∀ k s, 0 < k → k ≤ s.countP C.holds →
      scanTo scan k s ≤ s.length ∧ (s.take (scanTo scan k s)).countP C.holds = k)
    (h : Denotes M view start t s) {k : Nat} (hk : k ≤ s.countP C.holds) :
    ∃ r, MeasuredTree.find view M.size C.count scan t k = pure r ∧ r ≤ s.length ∧
      (s.take r).countP C.holds = k := by
  induction h generalizing k with
  | @leaf ms a s hv hms hs =>
      cases k with
      | zero => exact ⟨0, rfl, Nat.zero_le _, by simp⟩
      | succ k =>
          have hsize : M.size ms = s.length := by rw [hms, M.size_of]
          refine ⟨scanTo scan (k + 1) s, ?_, hscan (k + 1) s (Nat.succ_pos k) hk⟩
          simp only [MeasuredTree.find, hv, pure_bind, hsize, scanTo]
  | @node l r s t hl hr ihl ihr =>
      cases k with
      | zero => exact ⟨0, rfl, Nat.zero_le _, by simp⟩
      | succ k =>
          rw [List.countP_append] at hk
          simp only [MeasuredTree.find, hl.count_eq C, hl.size_eq]
          split
          · rename_i hleft
            obtain ⟨r, hr, hle, hcount⟩ := ihl hleft
            refine ⟨r, hr, ?_, ?_⟩
            · rw [List.length_append]
              exact Nat.le_add_right_of_le hle
            · rw [List.take_append_of_le_length hle, hcount]
          · rename_i hright
            obtain ⟨r, hr, hle, hcount⟩ := ihr (k := k + 1 - s.countP C.holds) (by omega)
            refine ⟨s.length + r, by rw [hr, pure_bind], ?_, ?_⟩
            · rw [List.length_append]
              exact Nat.add_le_add_left hle _
            · rw [List.take_length_add_append, List.countP_append, hcount]
              omega

theorem Denotes.itemAt {view : μ → α → Option (List β)} {read : List β → Nat → Option β}
    (hread : ∀ s o, o < s.length → read s o = s[o]?) {t : MeasuredTree μ α} {s : List β}
    (h : Denotes M view start t s) {o : Nat} (ho : o < s.length) :
    itemAt view read M.size t o = s[o]? := by
  induction h generalizing o with
  | leaf hv _ _ =>
      simp only [MeasuredTree.itemAt, hv, Option.pure_def, Option.bind_eq_bind, Option.bind_some]
      exact hread _ o ho
  | @node l r s t hl hr ihl ihr =>
      simp only [MeasuredTree.itemAt, hl.size_eq]
      rw [List.length_append] at ho
      split
      · rename_i hlt
        rw [ihl hlt, List.getElem?_append_left hlt]
      · rename_i hge
        rw [ihr (by omega), List.getElem?_append_right (by omega)]

end Ned.Library.MeasuredTree

/-!
## Balance of measured trees

Joining and splitting keep trees balanced. Pairing neighbours does not for every number of leaves:
the odd one that is carried up may be left two levels behind.
-/

namespace Ned.Library.MeasuredTree

variable {μ α : Type}

/-- Every cached depth is right, and the depths of two siblings differ by at most one. -/
def Balanced : MeasuredTree μ α → Prop
  | leaf _ _ => True
  | node _ d l r =>
      d = 1 + max l.depth r.depth ∧ l.depth ≤ r.depth + 1 ∧ r.depth ≤ l.depth + 1 ∧
        l.Balanced ∧ r.Balanced

def BalancedOpt (t : Option (MeasuredTree μ α)) : Prop := ∀ u, t = some u → u.Balanced

@[simp] theorem depth_leaf (ms : μ) (a : α) : (leaf ms a).depth = 0 := rfl

@[simp] theorem depth_node (ms : μ) (d : Nat) (l r : MeasuredTree μ α) :
    (node ms d l r).depth = d := rfl

theorem balanced_leaf (ms : μ) (a : α) : (leaf ms a).Balanced := trivial

theorem balancedOpt_none : BalancedOpt (none : Option (MeasuredTree μ α)) := by
  intro u hu
  cases hu

theorem balancedOpt_some {t : MeasuredTree μ α} (h : t.Balanced) : BalancedOpt (some t) := by
  intro u hu
  cases hu
  exact h

variable [Add μ]

@[simp] theorem depth_mk (l r : MeasuredTree μ α) : (mk l r).depth = 1 + max l.depth r.depth := rfl

theorem balanced_mk_iff {l r : MeasuredTree μ α} :
    (mk l r).Balanced ↔
      l.depth ≤ r.depth + 1 ∧ r.depth ≤ l.depth + 1 ∧ l.Balanced ∧ r.Balanced :=
  ⟨fun h => h.2, fun h => ⟨rfl, h⟩⟩

/-! ## Rebalancing -/

theorem rebalance_mk (l r : MeasuredTree μ α) :
    rebalance (mk l r) =
      if l.depth > r.depth + 1 then
        rotateRight (if l.leansRight then mk (rotateLeft l) r else mk l r)
      else if r.depth > l.depth + 1 then
        rotateLeft (if r.leansLeft then mk l (rotateRight r) else mk l r)
      else
        mk l r := rfl

theorem rebalance_mk_right {l r : MeasuredTree μ α} (hl : l.Balanced) (hr : r.Balanced)
    (hdeep : r.depth = l.depth + 2) :
    (rebalance (mk l r)).Balanced ∧ r.depth ≤ (rebalance (mk l r)).depth ∧
      (rebalance (mk l r)).depth ≤ r.depth + 1 := by
  cases r with
  | leaf ms a => cases hdeep
  | node ms d rl rr =>
      obtain ⟨hd, hleft, hright, hrl, hrr⟩ := hr
      rw [depth_node] at hdeep
      by_cases hlean : rl.depth > rr.depth
      · cases rl with
        | leaf ms a => cases hlean
        | node ms' d' rll rlr =>
            obtain ⟨hd', hleft', hright', hrll, hrlr⟩ := hrl
            have hlean' := hlean
            simp only [depth_node] at hd hleft hright hlean'
            have heq : rebalance (mk l (node ms d (node ms' d' rll rlr) rr)) =
                mk (mk l rll) (mk rlr rr) := by
              rw [rebalance_mk, if_neg (by rw [depth_node]; omega), if_pos (by rw [depth_node]; omega),
                leansLeft, if_pos (decide_eq_true hlean)]
              rfl
            rw [heq, depth_node]
            simp only [balanced_mk_iff, depth_mk]
            refine ⟨⟨?_, ?_, ⟨?_, ?_, hl, hrll⟩, ?_, ?_, hrlr, hrr⟩, ?_, ?_⟩ <;> omega
      · have heq : rebalance (mk l (node ms d rl rr)) = mk (mk l rl) rr := by
          rw [rebalance_mk, if_neg (by rw [depth_node]; omega), if_pos (by rw [depth_node]; omega),
            leansLeft, if_neg (by rw [decide_eq_true_eq]; exact hlean)]
          rfl
        rw [heq, depth_node]
        simp only [balanced_mk_iff, depth_mk]
        refine ⟨⟨?_, ?_, ⟨?_, ?_, hl, hrl⟩, hrr⟩, ?_, ?_⟩ <;> omega

theorem rebalance_mk_left {l r : MeasuredTree μ α} (hl : l.Balanced) (hr : r.Balanced)
    (hdeep : l.depth = r.depth + 2) :
    (rebalance (mk l r)).Balanced ∧ l.depth ≤ (rebalance (mk l r)).depth ∧
      (rebalance (mk l r)).depth ≤ l.depth + 1 := by
  cases l with
  | leaf ms a => cases hdeep
  | node ms d ll lr =>
      obtain ⟨hd, hleft, hright, hll, hlr⟩ := hl
      rw [depth_node] at hdeep
      by_cases hlean : lr.depth > ll.depth
      · cases lr with
        | leaf ms a => cases hlean
        | node ms' d' lrl lrr =>
            obtain ⟨hd', hleft', hright', hlrl, hlrr⟩ := hlr
            have hlean' := hlean
            simp only [depth_node] at hd hleft hright hlean'
            have heq : rebalance (mk (node ms d ll (node ms' d' lrl lrr)) r) =
                mk (mk ll lrl) (mk lrr r) := by
              rw [rebalance_mk, if_pos (by rw [depth_node]; omega), leansRight,
                if_pos (decide_eq_true hlean)]
              rfl
            rw [heq, depth_node]
            simp only [balanced_mk_iff, depth_mk]
            refine ⟨⟨?_, ?_, ⟨?_, ?_, hll, hlrl⟩, ?_, ?_, hlrr, hr⟩, ?_, ?_⟩ <;> omega
      · have heq : rebalance (mk (node ms d ll lr) r) = mk ll (mk lr r) := by
          rw [rebalance_mk, if_pos (by rw [depth_node]; omega), leansRight,
            if_neg (by rw [decide_eq_true_eq]; exact hlean)]
          rfl
        rw [heq, depth_node]
        simp only [balanced_mk_iff, depth_mk]
        refine ⟨⟨?_, ?_, hll, ?_, ?_, hlr, hr⟩, ?_, ?_⟩ <;> omega

theorem rebalance_mk_level {l r : MeasuredTree μ α} (hleft : l.depth ≤ r.depth + 1)
    (hright : r.depth ≤ l.depth + 1) : rebalance (mk l r) = mk l r := by
  rw [rebalance_mk, if_neg (Nat.not_lt.2 hleft), if_neg (Nat.not_lt.2 hright)]

/-! ## Joining -/

theorem Balanced.join {l r : MeasuredTree μ α} (hl : l.Balanced) (hr : r.Balanced) :
    (join l r).Balanced ∧ max l.depth r.depth ≤ (join l r).depth ∧
      (join l r).depth ≤ max l.depth r.depth + 1 := by
  fun_induction MeasuredTree.join l r with
  | case1 r ms d ll lr hdeep ih =>
      obtain ⟨hd, hleft, hright, hll, hlr⟩ := hl
      obtain ⟨hjoin, hmin, hmax⟩ := ih hlr hr
      simp only [depth_node] at hdeep ⊢
      by_cases htall : (MeasuredTree.join lr r).depth = ll.depth + 2
      · obtain ⟨hbal, hlow, hhigh⟩ := rebalance_mk_right hll hjoin htall
        refine ⟨hbal, ?_, ?_⟩ <;> omega
      · rw [rebalance_mk_level (by omega) (by omega), balanced_mk_iff, depth_mk]
        refine ⟨⟨?_, ?_, hll, hjoin⟩, ?_, ?_⟩ <;> omega
  | case2 r ms a hdeep => exact absurd hdeep (by simp)
  | case3 l ms d rl rr hl' hdeep ih =>
      obtain ⟨hd, hleft, hright, hrl, hrr⟩ := hr
      obtain ⟨hjoin, hmin, hmax⟩ := ih hl hrl
      simp only [depth_node] at hdeep hl' ⊢
      by_cases htall : (MeasuredTree.join l rl).depth = rr.depth + 2
      · obtain ⟨hbal, hlow, hhigh⟩ := rebalance_mk_left hjoin hrr htall
        refine ⟨hbal, ?_, ?_⟩ <;> omega
      · rw [rebalance_mk_level (by omega) (by omega), balanced_mk_iff, depth_mk]
        refine ⟨⟨?_, ?_, hjoin, hrr⟩, ?_, ?_⟩ <;> omega
  | case4 l ms a hl' hdeep => exact absurd hdeep (by simp)
  | case5 l r hl' hr' =>
      rw [balanced_mk_iff, depth_mk]
      refine ⟨⟨?_, ?_, hl, hr⟩, ?_, ?_⟩ <;> omega

theorem BalancedOpt.concat {l r : Option (MeasuredTree μ α)} (hl : BalancedOpt l)
    (hr : BalancedOpt r) : BalancedOpt (concat l r) := by
  cases l with
  | none => exact hr
  | some l =>
      cases r with
      | none => exact hl
      | some r => exact balancedOpt_some ((hl l rfl).join (hr r rfl)).1

/-! ## Splitting -/

structure Returns (m : Type → Type) [Monad m] where
  rel : {γ : Type} → m γ → γ → Prop
  of_pure : ∀ {γ : Type} {x y : γ}, rel (pure x : m γ) y → x = y
  of_bind : ∀ {γ δ : Type} {x : m γ} {f : γ → m δ} {z : δ}, rel (x >>= f) z →
    ∃ y, rel x y ∧ rel (f y) z

def Returns.id : Returns Id where
  rel x y := x = y
  of_pure h := h
  of_bind h := ⟨_, rfl, h⟩

def Returns.option : Returns Option where
  rel x y := x = some y
  of_pure h := Option.some.inj h
  of_bind h := Option.bind_eq_some_iff.1 h

theorem Balanced.split {m : Type → Type} [Monad m] (R : Returns m) {size : μ → Nat}
    {splitLeaf : μ → α → Nat → m (Option (MeasuredTree μ α) × Option (MeasuredTree μ α))}
    (hleaf : ∀ ms a o l r, R.rel (splitLeaf ms a o) (l, r) → BalancedOpt l ∧ BalancedOpt r)
    {t : MeasuredTree μ α} {o : Nat} {l r : Option (MeasuredTree μ α)} (h : t.Balanced)
    (hsplit : R.rel (split size splitLeaf t o) (l, r)) : BalancedOpt l ∧ BalancedOpt r := by
  induction t generalizing o l r with
  | leaf ms a =>
      cases o with
      | zero =>
          cases R.of_pure hsplit
          exact ⟨balancedOpt_none, balancedOpt_some h⟩
      | succ o =>
          simp only [MeasuredTree.split] at hsplit
          split at hsplit
          · cases R.of_pure hsplit
            exact ⟨balancedOpt_some h, balancedOpt_none⟩
          · exact hleaf ms a _ l r hsplit
  | node ms d tl tr ihl ihr =>
      cases o with
      | zero =>
          cases R.of_pure hsplit
          exact ⟨balancedOpt_none, balancedOpt_some h⟩
      | succ o =>
          have hl := h.2.2.2.1
          have hr := h.2.2.2.2
          simp only [MeasuredTree.split] at hsplit
          split at hsplit
          · cases R.of_pure hsplit
            exact ⟨balancedOpt_some h, balancedOpt_none⟩
          · split at hsplit
            · obtain ⟨⟨ll, lr⟩, hleft, hsplit⟩ := R.of_bind hsplit
              obtain ⟨hll, hlr⟩ := ihl hl hleft
              cases R.of_pure hsplit
              exact ⟨hll, hlr.concat (balancedOpt_some hr)⟩
            · split at hsplit
              · obtain ⟨⟨rl, rr⟩, hright, hsplit⟩ := R.of_bind hsplit
                obtain ⟨hrl, hrr⟩ := ihr hr hright
                cases R.of_pure hsplit
                exact ⟨(balancedOpt_some hl).concat hrl, hrr⟩
              · cases R.of_pure hsplit
                exact ⟨balancedOpt_some hl, balancedOpt_some hr⟩

/-! ## Pairing neighbours -/

/-- Written in binary, the number has no two adjacent zeros. -/
def NoAdjacentZeros (n : Nat) : Prop := ∀ k, 0 < n / 2 ^ k → n / 2 ^ k % 4 ≠ 0

theorem noAdjacentZeros_zero : NoAdjacentZeros 0 := by
  intro k hk
  rw [Nat.zero_div] at hk
  cases hk

theorem noAdjacentZeros_iff {n : Nat} (hn : 0 < n) :
    NoAdjacentZeros n ↔ n % 4 ≠ 0 ∧ NoAdjacentZeros (n / 2) := by
  have hhalf : ∀ k, n / 2 / 2 ^ k = n / 2 ^ (k + 1) := by
    intro k
    rw [Nat.div_div_eq_div_mul, Nat.pow_succ, Nat.mul_comm]
  constructor
  · intro h
    refine ⟨?_, fun k hk => ?_⟩
    · have h0 := h 0
      rw [Nat.pow_zero, Nat.div_one] at h0
      exact h0 hn
    · rw [hhalf] at hk ⊢
      exact h (k + 1) hk
  · rintro ⟨h0, h⟩ k hk
    cases k with
    | zero =>
        rw [Nat.pow_zero, Nat.div_one]
        exact h0
    | succ k =>
        rw [← hhalf] at hk ⊢
        exact h k hk

def Level (k : Nat) (t : Option (MeasuredTree μ α)) : Prop :=
  ∃ u, t = some u ∧ u.Balanced ∧ u.depth = k

omit [Add μ] in
theorem level_leaf (ms : μ) (a : α) : Level 0 (some (leaf ms a)) := ⟨_, rfl, trivial, rfl⟩

theorem pairUp_append {ts us : List (Option (MeasuredTree μ α))} (h : ts.length % 2 = 0) :
    pairUp (ts ++ us) = pairUp ts ++ pairUp us := by
  induction ts using pairUp.induct with
  | case1 l r rest ih =>
      simp only [List.length_cons] at h
      simp only [List.cons_append, pairUp, ih (by omega)]
  | case2 ts hshort =>
      cases ts with
      | nil => simp [pairUp]
      | cons l ts =>
          cases ts with
          | nil => simp at h
          | cons r rest => exact absurd rfl (hshort l r rest)

theorem level_pairUp {k : Nat} {ts : List (Option (MeasuredTree μ α))} (h : ts.length % 2 = 0)
    (hts : ∀ t ∈ ts, Level k t) :
    (∀ t ∈ pairUp ts, Level (k + 1) t) ∧ (pairUp ts).length = ts.length / 2 := by
  induction ts using pairUp.induct with
  | case1 l r rest ih =>
      simp only [List.length_cons] at h ⊢
      obtain ⟨hrest, hlength⟩ := ih (by omega) fun t ht =>
        hts t (List.mem_cons_of_mem _ (List.mem_cons_of_mem _ ht))
      obtain ⟨u, rfl, hu, hk⟩ := hts l List.mem_cons_self
      obtain ⟨v, rfl, hv, hk'⟩ := hts r (List.mem_cons_of_mem _ List.mem_cons_self)
      rw [pairUp]
      refine ⟨fun t ht => ?_, by simp only [List.length_cons, hlength]; omega⟩
      rcases List.mem_cons.1 ht with rfl | ht
      · refine ⟨mk u v, rfl, balanced_mk_iff.2 ⟨?_, ?_, hu, hv⟩, ?_⟩ <;>
          simp only [depth_mk, hk, hk'] <;> omega
      · exact hrest t ht
  | case2 ts hshort =>
      cases ts with
      | nil => simp [pairUp]
      | cons l ts =>
          cases ts with
          | nil => simp at h
          | cons r rest => exact absurd rfl (hshort l r rest)

theorem exists_unbalanced_pairUp {u : MeasuredTree μ α} (hu : ¬u.Balanced) :
    ∀ {ts : List (Option (MeasuredTree μ α))}, some u ∈ ts →
      ∃ v : MeasuredTree μ α, some v ∈ pairUp ts ∧ ¬v.Balanced
  | [t], hmem => ⟨u, hmem, hu⟩
  | l :: r :: rest, hmem => by
      rw [pairUp]
      rcases List.mem_cons.1 hmem with rfl | hmem
      · cases r with
        | none => exact ⟨u, List.mem_cons_self, hu⟩
        | some r =>
            exact ⟨mk u r, List.mem_cons_self, fun h => hu (balanced_mk_iff.1 h).2.2.1⟩
      · rcases List.mem_cons.1 hmem with rfl | hmem
        · cases l with
          | none => exact ⟨u, List.mem_cons_self, hu⟩
          | some l =>
              exact ⟨mk l u, List.mem_cons_self, fun h => hu (balanced_mk_iff.1 h).2.2.2⟩
        · obtain ⟨v, hv, hbad⟩ := exists_unbalanced_pairUp hu hmem
          exact ⟨v, List.mem_cons_of_mem _ hv, hbad⟩

theorem not_balanced_buildBalanced {ts : List (Option (MeasuredTree μ α))} {u : MeasuredTree μ α}
    (hu : ¬u.Balanced) (hmem : some u ∈ ts) : ¬BalancedOpt (buildBalanced ts) := by
  induction ts using buildBalanced.induct generalizing u with
  | case1 ts hlen ih =>
      obtain ⟨v, hv, hbad⟩ := exists_unbalanced_pairUp hu hmem
      rw [buildBalanced, if_pos hlen]
      exact ih hbad hv
  | case2 ts hlen =>
      rw [buildBalanced, if_neg hlen]
      match ts, hlen, hmem with
      | [t], _, hmem =>
          rw [List.mem_singleton] at hmem
          exact fun h => hu (h u hmem.symm)
      | _ :: _ :: _, hlen, _ => simp at hlen

theorem balanced_row_iff {k : Nat} (lag : Nat) {ts : List (Option (MeasuredTree μ α))}
    {u : MeasuredTree μ α} (hts : ∀ t ∈ ts, Level k t) (hu : u.Balanced)
    (hlag : u.depth + lag = k) :
    BalancedOpt (buildBalanced (ts ++ [some u])) ↔
      ts.length = 0 ∨
        (lag ≤ 1 ∧ (ts.length % 2 = 0 → lag = 0) ∧ NoAdjacentZeros ts.length) := by
  generalize hn : ts.length = n
  induction n using Nat.strongRecOn generalizing k lag ts u with
  | _ n ih =>
      rcases Nat.eq_zero_or_pos n with rfl | hpos
      · obtain rfl := List.length_eq_zero_iff.1 hn
        have hone : buildBalanced ([] ++ [some u]) = some u := by
          rw [buildBalanced]
          rfl
        rw [hone]
        exact ⟨fun _ => Or.inl rfl, fun _ => balancedOpt_some hu⟩
      · rw [buildBalanced, if_pos (by simp; omega)]
        rcases Nat.mod_two_eq_zero_or_one n with heven | hodd
        · -- the last tree is carried up
          obtain ⟨hlevel, hlength⟩ := level_pairUp (hn ▸ heven) hts
          rw [pairUp_append (hn ▸ heven)]
          have hcarried := ih (n / 2) (by omega) _ hlevel hu
            (show u.depth + (lag + 1) = k + 1 by omega) (by omega)
          rw [show pairUp [some u] = [some u] from rfl, hcarried, noAdjacentZeros_iff hpos]
          constructor
          · rintro (hzero | ⟨hle, hmod, hadj⟩)
            · omega
            · refine Or.inr ⟨by omega, fun _ => by omega, by omega, hadj⟩
          · rintro (hzero | ⟨hle, hmod, hfour, hadj⟩)
            · omega
            · have := hmod heven
              exact Or.inr ⟨by omega, fun _ => by omega, hadj⟩
        · -- the last tree is paired with the one before it
          obtain ⟨ys, x, hsplit⟩ : ∃ ys x, ts = ys ++ [x] :=
            ⟨ts.dropLast, ts.getLast (List.ne_nil_of_length_pos (hn ▸ hpos)),
              (List.dropLast_concat_getLast _).symm⟩
          subst hsplit
          rw [List.length_append, List.length_singleton] at hn
          have hys : ys.length % 2 = 0 := by omega
          obtain ⟨v, rfl, hv, hk⟩ := hts x (List.mem_append_right _ (List.mem_singleton_self x))
          obtain ⟨hlevel, hlength⟩ := level_pairUp hys fun t ht =>
            hts t (List.mem_append_left _ ht)
          rw [List.append_assoc, List.singleton_append, pairUp_append hys]
          have hpair : pairUp [some v, some u] = [some (mk v u)] := rfl
          rw [hpair]
          by_cases hle : lag ≤ 1
          · have hmk : (mk v u).Balanced := by
              refine balanced_mk_iff.2 ⟨?_, ?_, hv, hu⟩ <;> omega
            have hpaired := ih (n / 2) (by omega) 0 hlevel hmk
              (by rw [depth_mk]; omega) (by omega)
            rw [hpaired, noAdjacentZeros_iff hpos]
            constructor
            · rintro (hzero | ⟨-, -, hadj⟩)
              · exact Or.inr ⟨hle, fun heven => by omega, by omega,
                  hzero ▸ noAdjacentZeros_zero⟩
              · exact Or.inr ⟨hle, fun heven => by omega, by omega, hadj⟩
            · rintro (hzero | ⟨-, -, -, hadj⟩)
              · omega
              · exact Or.inr ⟨Nat.zero_le _, fun _ => rfl, hadj⟩
          · have hmk : ¬(mk v u).Balanced := by
              rw [balanced_mk_iff]
              omega
            refine ⟨fun h => absurd h ?_, ?_⟩
            · exact not_balanced_buildBalanced hmk
                (List.mem_append_right _ (List.mem_singleton_self _))
            · rintro (hzero | ⟨hle', -⟩) <;> omega

theorem balanced_buildBalanced_iff {ts : List (Option (MeasuredTree μ α))}
    (hts : ∀ t ∈ ts, ∃ ms a, t = some (leaf ms a)) :
    BalancedOpt (buildBalanced ts) ↔ NoAdjacentZeros (ts.length - 1) := by
  rcases List.eq_nil_or_concat ts with rfl | ⟨ts, t, rfl⟩
  · rw [buildBalanced]
    exact ⟨fun _ => noAdjacentZeros_zero, fun _ => balancedOpt_none⟩
  · rw [List.concat_eq_append] at hts ⊢
    obtain ⟨ms, a, rfl⟩ := hts t (List.mem_append_right _ (List.mem_singleton_self t))
    have hlevel : ∀ t ∈ ts, Level 0 t := by
      intro t ht
      obtain ⟨ms, a, rfl⟩ := hts t (List.mem_append_left _ ht)
      exact level_leaf ms a
    rw [balanced_row_iff 0 hlevel (balanced_leaf ms a) rfl]
    simp only [List.length_append, List.length_singleton, Nat.add_sub_cancel]
    constructor
    · rintro (hzero | ⟨-, -, hadj⟩)
      · rw [hzero]
        exact noAdjacentZeros_zero
      · exact hadj
    · exact fun hadj => Or.inr ⟨Nat.zero_le _, fun _ => trivial, hadj⟩

end Ned.Library.MeasuredTree
