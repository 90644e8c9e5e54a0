import Mathlib.Algebra.Order.BigOperators.Group.Finset
import Mathlib.Data.Finset.Image
import Kagari.Hir.ConstEval

/-!
# A budget that suffices for constants

An initializer is entered once, as its constant is then cached. So the sizes of all initializers
together bound the steps, and the depth as well.
-/

namespace Kagari.Hir

open Finset

/-- The nodes of an expression. -/
def ConstExpr.size : ConstExpr → Nat
  | .cast _ operand | .unary _ _ operand => operand.size + 1
  | .binary _ _ lhs rhs => lhs.size + rhs.size + 1
  | _ => 1

/-- The constants that an expression names. -/
def ConstExpr.names : ConstExpr → List ConstId
  | .name _ (some id) => [id]
  | .cast _ operand | .unary _ _ operand => operand.names
  | .binary _ _ lhs rhs => lhs.names ++ rhs.names
  | _ => []

/-- The initializers of these constants name no others. -/
def ConstModule.Closed (m : ConstModule) (all : Finset ConstId) : Prop :=
  ∀ id ∈ all, ∀ other ∈ (m.initializer id).names, other ∈ all

namespace Evaluator

variable {m : ConstModule} {all : Finset ConstId} {s s' : Evaluator} {owner id : ConstId} {e : ConstExpr}

variable (m all) in
/-- The sizes of the initializers that are still to be entered. -/
def left (s : Evaluator) : Nat := ∑ id ∈ all with (s.cache id).isNone, (m.initializer id).size

variable (m all) in
/-- What a run of `cost` steps does, apart from those of the initializers that it enters. -/
structure Spends (cost : Nat) (s s' : Evaluator) : Prop where
  active : s'.exhausted = false
  left : s'.left m all ≤ s.left m all
  steps : s'.steps + s'.left m all ≤ s.steps + s.left m all + cost

variable (m all) in
/-- The levels and the steps for a run of that cost. -/
structure Room (room cost : Nat) (s : Evaluator) : Prop where
  active : s.exhausted = false
  depth : cost + s.left m all ≤ room
  steps : s.steps + s.left m all + cost ≤ m.limits.maxSteps

variable {cost cost' room : Nat}

theorem Spends.trans {s'' : Evaluator} (h : Spends m all cost s s') (h' : Spends m all cost' s' s'') :
    Spends m all (cost + cost') s s'' :=
  ⟨h'.active, h'.left.trans h.left, by have := h.steps; have := h'.steps; omega⟩

theorem Spends.weaken (h : Spends m all cost s s') (hle : cost ≤ cost') : Spends m all cost' s s' :=
  ⟨h.active, h.left, by have := h.steps; omega⟩

theorem Room.same (h : Room m all room cost s) : Spends m all cost s s :=
  ⟨h.active, Nat.le_refl _, by omega⟩

/-- The room for what follows a part. -/
theorem Room.after (h : Room m all room (cost + cost') s) (hpart : Spends m all cost s s') :
    Room m all room cost' s' := by
  obtain ⟨-, hdep, hsteps⟩ := h
  obtain ⟨hact, hleft, hcost⟩ := hpart
  exact ⟨hact, by omega, by omega⟩

theorem left_insert (hid : id ∈ all) (hnone : s.cache id = none) (value : Option ScalarValue) :
    (m.initializer id).size + (s.insert id value).left m all = s.left m all := by
  have herase : {other ∈ all | ((s.insert id value).cache other).isNone} =
      {other ∈ all | (s.cache other).isNone}.erase id := by
    ext other
    by_cases h : other = id <;> simp [insert, h, and_comm]
  unfold left
  rw [herase]
  exact add_sum_erase _ (fun id => (m.initializer id).size) (by simp [hid, hnone])

theorem left_insert_le (s : Evaluator) (id : ConstId) (value : Option ScalarValue) :
    (s.insert id value).left m all ≤ s.left m all := by
  refine sum_le_sum_of_subset fun other h => ?_
  obtain ⟨hmem, h⟩ := mem_filter.mp h
  refine mem_filter.mpr ⟨hmem, ?_⟩
  unfold insert at h
  dsimp only at h
  split at h
  · cases h
  · exact h

theorem report_spends (h : s.exhausted = false) (span : Span) (result : Option (Except String ScalarValue)) :
    Spends m all 0 s (s.report owner span result).2 := by
  rcases result with _ | _ | _ <;> exact ⟨h, Nat.le_refl _, Nat.le_refl _⟩

section Inner

variable {expression : ConstId → ConstExpr → Evaluator → Option ScalarValue × Evaluator}
  (hclosed : m.Closed all)
  (hexpr : ∀ owner e s, (∀ id ∈ e.names, id ∈ all) → Room m all room e.size s →
    Spends m all e.size s (expression owner e s).2)
include hclosed hexpr

theorem constantWith_spends (hid : id ∈ all) (h : Room m all room 0 s) :
    Spends m all 0 s (constantWith m expression id s).2 := by
  unfold constantWith
  cases hcch : s.cache id with
  | some value => exact h.same
  | none =>
    have hleft := left_insert (m := m) hid hcch none
    obtain ⟨hact, hdep, hsteps⟩ := h
    obtain ⟨hact', hleft', hsteps'⟩ := hexpr id _ (s.insert id none) (hclosed id hid)
      ⟨hact, by omega, by show s.steps + _ + _ ≤ _; omega⟩
    change _ ≤ s.steps + _ + _ at hsteps'
    refine ⟨hact', (left_insert_le _ id _).trans (by omega), (Nat.add_le_add_left (left_insert_le _ id _) _).trans ?_⟩
    show (expression id (m.initializer id) (s.insert id none)).2.steps + _ ≤ _
    omega

theorem expressionInner_spends (owner : ConstId) (hnames : ∀ id ∈ e.names, id ∈ all)
    (h : Room m all room (e.size - 1) s) : Spends m all (e.size - 1) s (expressionInner m expression owner e s).2 := by
  unfold expressionInner
  split
  · exact h.same
  cases e with
  | unit | literal | other => exact h.same
  | name facts target =>
    cases target with
    | none => exact h.same
    | some id => exact constantWith_spends hclosed hexpr (hnames id (List.mem_singleton_self id)) h
  | cast facts operand =>
    dsimp only
    split
    · exact h.same
    · have hpart := hexpr owner operand s hnames h
      split <;> rename_i hrun <;> rw [hrun] at hpart <;> exact hpart
  | unary facts op operand =>
    have hpart := hexpr owner operand s hnames h
    dsimp only
    split <;> rename_i hrun <;> rw [hrun] at hpart
    · exact hpart
    · exact hpart.trans (report_spends hpart.active _ _)
  | binary facts op lhs rhs =>
    have hcost : (ConstExpr.binary facts op lhs rhs).size - 1 = lhs.size + rhs.size := rfl
    rw [hcost] at h ⊢
    have hpart := hexpr owner lhs s (fun id hid => hnames id (List.mem_append_left _ hid))
      ⟨h.active, (Nat.add_le_add_right (Nat.le_add_right _ _) _).trans h.depth,
        (Nat.add_le_add_left (Nat.le_add_right _ _) _).trans h.steps⟩
    dsimp only
    split <;> rename_i hrun <;> rw [hrun] at hpart
    · exact hpart.weaken (Nat.le_add_right _ _)
    split
    · exact hpart.weaken (Nat.le_add_right _ _)
    have hrest := hexpr owner rhs _ (fun id hid => hnames id (List.mem_append_right _ hid)) (h.after hpart)
    split <;> rename_i hrun <;> rw [hrun] at hrest
    · exact hpart.trans hrest
    · exact (hpart.trans hrest).trans (report_spends hrest.active _ _)

end Inner

/-- With enough levels and steps, an expression is evaluated within the budget. -/
theorem expression_spends (hclosed : m.Closed all) (room : Nat) :
    ∀ owner e s, (∀ id ∈ e.names, id ∈ all) → Room m all room e.size s →
      Spends m all e.size s (expression m room owner e s).2 := by
  induction room with
  | zero =>
    intro owner e s _ h
    have hsize : 0 < e.size := by cases e <;> simp [ConstExpr.size]
    have := h.depth
    omega
  | succ room ih =>
    intro owner e s hnames ⟨hact, hdep, hsteps⟩
    have hsize : 0 < e.size := by cases e <;> simp [ConstExpr.size]
    have henter : enter m (room + 1) e.facts.span s = (true, { s with steps := s.steps + 1 }) := by
      unfold enter
      rw [hact]
      simp only [Bool.false_eq_true, if_false, Nat.add_one_ne_zero]
      rw [if_neg (by omega)]
    unfold expression
    rw [henter]
    have hroom : Room m all room (e.size - 1) { s with steps := s.steps + 1 } :=
      ⟨hact, by show _ + s.left m all ≤ _; omega, by show s.steps + 1 + s.left m all + _ ≤ _; omega⟩
    obtain ⟨hact', hleft, hcost⟩ := expressionInner_spends hclosed ih owner hnames hroom
    refine ⟨hact', hleft, hcost.trans ?_⟩
    show s.steps + 1 + s.left m all + _ ≤ _
    omega

theorem constants_spends (hclosed : m.Closed all) (ids : List ConstId) :
    ∀ {s}, (∀ id ∈ ids, id ∈ all) → Room m all m.limits.maxDepth 0 s → (constants m ids s).exhausted = false := by
  induction ids with
  | nil => exact fun _ h => h.active
  | cons id ids ih =>
    intro s hids h
    rw [constants, if_neg (by rw [h.active]; nofun)]
    have hone := constantWith_spends hclosed (expression_spends hclosed m.limits.maxDepth)
      (hids id (List.mem_cons_self ..)) h
    exact ih (fun id hid => hids id (List.mem_cons_of_mem _ hid)) (h.after hone)

end Evaluator

/-- A budget that suffices: as many steps and levels as the initializers have nodes, of the constants in
question and of those that they name. -/
theorem evaluateConstants_within {m : ConstModule} (all : Finset ConstId)
    (hclosed : m.Closed all) {ids : List ConstId}
    (hids : ∀ id ∈ ids, id ∈ all) {steps : Nat}
    (hsteps : steps + ∑ id ∈ all, (m.initializer id).size ≤ m.limits.maxSteps)
    (hdepth : ∑ id ∈ all, (m.initializer id).size ≤ m.limits.maxDepth) :
    (evaluateConstants m ids steps false).2.exhausted = false := by
  have hleft : (Evaluator.new steps false).left m all = ∑ id ∈ all, (m.initializer id).size := by
    unfold Evaluator.left
    exact sum_congr (filter_true_of_mem fun _ _ => rfl) fun _ _ => rfl
  refine Evaluator.constants_spends hclosed ids hids ⟨rfl, by omega, ?_⟩
  rw [hleft]
  exact hsteps

end Kagari.Hir
