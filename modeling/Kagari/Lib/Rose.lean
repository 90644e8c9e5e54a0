import Mathlib.Order.Compare

/-!
# Rose trees in lexicographic order

A tree is a label over a list of trees. Two trees are compared by their labels, then by their children
from the first on; a proper prefix comes first. Over a linear order of labels this is a linear order of
trees, so a comparison that agrees with `Rose.cmp` through an injective map is one too.
-/

namespace Lib

inductive Rose (L : Type) where
  | node (label : L) (children : List (Rose L))

namespace Rose

variable {L : Type}

def label : Rose L → L
  | .node label _ => label

section Cmp

variable [LinearOrder L]

mutual

def cmp : Rose L → Rose L → Ordering
  | .node a as, .node b bs => (compare a b).then (cmpAll as bs)
termination_by structural x => x

def cmpAll : List (Rose L) → List (Rose L) → Ordering
  | [], [] => .eq
  | [], _ :: _ => .lt
  | _ :: _, [] => .gt
  | a :: as, b :: bs => (cmp a b).then (cmpAll as bs)
termination_by structural x => x

end

mutual

theorem cmp_eq_iff : (a b : Rose L) → (cmp a b = .eq ↔ a = b)
  | .node a as, .node b bs => by
    rw [cmp, Ordering.then_eq_eq, cmpAll_eq_iff as bs, compare_eq_iff_eq, Rose.node.injEq]

theorem cmpAll_eq_iff : (as bs : List (Rose L)) → (cmpAll as bs = .eq ↔ as = bs)
  | [], bs => by cases bs <;> simp [cmpAll]
  | a :: as, [] => by simp [cmpAll]
  | a :: as, b :: bs => by
    rw [cmpAll, Ordering.then_eq_eq, cmp_eq_iff a b, cmpAll_eq_iff as bs, List.cons.injEq]

end

mutual

theorem cmp_swap : (a b : Rose L) → (cmp a b).swap = cmp b a
  | .node a as, .node b bs => by
    rw [cmp, cmp, Ordering.swap_then, cmpAll_swap as bs, ← Std.OrientedOrd.eq_swap]

theorem cmpAll_swap : (as bs : List (Rose L)) → (cmpAll as bs).swap = cmpAll bs as
  | [], bs => by cases bs <;> simp [cmpAll]
  | a :: as, [] => by simp [cmpAll]
  | a :: as, b :: bs => by
    rw [cmpAll, cmpAll, Ordering.swap_then, cmp_swap a b, cmpAll_swap as bs]

end

mutual

theorem cmp_lt_trans : (a b c : Rose L) → cmp a b = .lt → cmp b c = .lt → cmp a c = .lt
  | .node a as, .node b bs, .node c cs => by
    simp only [cmp, Ordering.then_eq_lt, compare_lt_iff_lt, compare_eq_iff_eq]
    rintro (hab | ⟨rfl, hab⟩) (hbc | ⟨rfl, hbc⟩)
    · exact .inl (lt_trans hab hbc)
    · exact .inl hab
    · exact .inl hbc
    · exact .inr ⟨rfl, cmpAll_lt_trans as bs cs hab hbc⟩

theorem cmpAll_lt_trans : (as bs cs : List (Rose L)) → cmpAll as bs = .lt → cmpAll bs cs = .lt →
    cmpAll as cs = .lt
  | [], _, [] => by
    intro hab hbc
    rename_i bs
    cases bs with
    | nil => exact hab
    | cons b bs => cases hbc
  | [], _, _ :: _ => fun _ _ => rfl
  | _ :: _, [], _ => fun hab => nomatch hab
  | _ :: _, _ :: _, [] => fun _ hbc => nomatch hbc
  | a :: as, b :: bs, c :: cs => by
    simp only [cmpAll, Ordering.then_eq_lt, cmp_eq_iff]
    rintro (hab | ⟨rfl, hab⟩) (hbc | ⟨rfl, hbc⟩)
    · exact .inl (cmp_lt_trans a b c hab hbc)
    · exact .inl hab
    · exact .inl hbc
    · exact .inr ⟨rfl, cmpAll_lt_trans as bs cs hab hbc⟩

end

theorem cmp_self (a : Rose L) : cmp a a = .eq := (cmp_eq_iff a a).mpr rfl

theorem cmp_gt_iff {a b : Rose L} : cmp a b = .gt ↔ cmp b a = .lt := by
  rw [← cmp_swap a b]
  cases cmp a b <;> decide

instance : DecidableEq (Rose L) := fun a b => decidable_of_iff _ (cmp_eq_iff a b)

/-- The order of the comparison. -/
instance : LinearOrder (Rose L) where
  le a b := cmp a b ≠ .gt
  lt a b := cmp a b = .lt
  le_refl a := by
    rw [cmp_self]
    decide
  le_trans a b c hab hbc := by
    rw [ne_eq, cmp_gt_iff] at hab hbc ⊢
    intro hca
    rcases h : cmp a b with _ | _ | _
    · exact hbc (cmp_lt_trans c a b hca h)
    · obtain rfl := (cmp_eq_iff a b).mp h
      exact hbc hca
    · exact hab (cmp_gt_iff.mp h)
  le_antisymm a b hab hba := by
    rw [ne_eq, cmp_gt_iff] at hab hba
    refine (cmp_eq_iff a b).mp ?_
    rcases h : cmp a b with _ | _ | _
    · exact absurd h hba
    · rfl
    · exact absurd (cmp_gt_iff.mp h) hab
  le_total a b := by
    rw [ne_eq, ne_eq, cmp_gt_iff, cmp_gt_iff]
    by_cases h : cmp b a = .lt
    · refine .inr fun h' => ?_
      have hself := cmp_lt_trans a b a h' h
      rw [cmp_self] at hself
      cases hself
    · exact .inl h
  lt_iff_le_not_ge a b := by
    rw [ne_eq, ne_eq, cmp_gt_iff, cmp_gt_iff, not_not]
    refine ⟨fun h => ⟨fun h' => ?_, h⟩, fun h => h.2⟩
    have hself := cmp_lt_trans a b a h h'
    rw [cmp_self] at hself
    cases hself
  toDecidableLE a b := inferInstanceAs (Decidable (cmp a b ≠ .gt))
  toDecidableLT a b := inferInstanceAs (Decidable (cmp a b = .lt))
  toDecidableEq := inferInstance
  compare := cmp
  compare_eq_compareOfLessAndEq a b := by
    unfold compareOfLessAndEq
    show cmp a b = if cmp a b = .lt then .lt else if a = b then .eq else .gt
    rcases h : cmp a b with _ | _ | _
    · rfl
    · simp [(cmp_eq_iff a b).mp h]
    · have hne : a ≠ b := fun heq => by rw [(cmp_eq_iff a b).mpr heq] at h; cases h
      simp [hne]

theorem compare_eq (a b : Rose L) : compare a b = cmp a b := rfl

end Cmp

end Rose

end Lib
