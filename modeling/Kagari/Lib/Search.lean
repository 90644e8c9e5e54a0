import Mathlib.Data.List.Nodup
import Mathlib.Data.List.Perm.Subperm

/-!
# Graph search and acyclic graphs

`search` looks for a node with a stack and a list of the nodes it has seen, at most `bound` of them.
When the nodes that can be seen are fewer than the bound, it finds the goal exactly if it can be
reached (`search_iff`).

`Acyclic.add`: edges out of one node, to nodes that do not lead back to it, close no cycle.
-/

namespace Lib

open Relation List

variable {α : Type}

/-- Depth-first search for `goal`: whether it was met, or `none` when the bound was. -/
def search [DecidableEq α] (next : α → List α) (goal : α) (bound : Nat) : Nat → List α → List α → Option Bool
  | _, [], _ => some false
  | 0, _ :: _, _ => none
  | fuel + 1, node :: pending, visited =>
    if node = goal then some true
    else if node ∈ visited then search next goal bound fuel pending visited
    else if visited.length = bound then none
    else search next goal bound fuel ((next node).reverse ++ pending) (node :: visited)

/-- Follow one edge. -/
def Edge (next : α → List α) (a b : α) : Prop := b ∈ next a

section Search

variable {next : α → List α} {goal start : α}

/-- Between two turns: what was seen is not the goal, and leads to what was seen or is pending. -/
structure Searched (next : α → List α) (goal start : α) (pending visited : List α) : Prop where
  first : start ∈ visited ∨ start ∈ pending
  reached : ∀ a, a ∈ visited ∨ a ∈ pending → ReflTransGen (Edge next) start a
  closed : ∀ a ∈ visited, ∀ b ∈ next a, b ∈ visited ∨ b ∈ pending
  notGoal : goal ∉ visited
  nodup : visited.Nodup

theorem Searched.skip {node : α} {pending visited : List α}
    (h : Searched next goal start (node :: pending) visited) (hnode : node ∈ visited) :
    Searched next goal start pending visited := by
  have hmem : ∀ {a : α}, a ∈ visited ∨ a ∈ node :: pending → a ∈ visited ∨ a ∈ pending := by
    rintro a (ha | ha)
    · exact .inl ha
    · rcases mem_cons.mp ha with rfl | ha
      · exact .inl hnode
      · exact .inr ha
  refine ⟨hmem h.first, fun a ha => h.reached a ?_, fun a ha b hb => hmem (h.closed a ha b hb),
    h.notGoal, h.nodup⟩
  exact ha.imp id (mem_cons_of_mem _)

theorem Searched.visit {node : α} {pending visited : List α}
    (h : Searched next goal start (node :: pending) visited) (hgoal : node ≠ goal)
    (hnode : node ∉ visited) :
    Searched next goal start ((next node).reverse ++ pending) (node :: visited) := by
  have hmem : ∀ {a : α}, a ∈ visited ∨ a ∈ node :: pending →
      a ∈ node :: visited ∨ a ∈ (next node).reverse ++ pending := by
    rintro a (ha | ha)
    · exact .inl (mem_cons_of_mem _ ha)
    · rcases mem_cons.mp ha with rfl | ha
      · exact .inl mem_cons_self
      · exact .inr (mem_append_right _ ha)
  have hrch : ReflTransGen (Edge next) start node := h.reached node (.inr mem_cons_self)
  refine ⟨hmem h.first, fun a ha => ?_, fun a ha b hb => ?_, ?_, nodup_cons.mpr ⟨hnode, h.nodup⟩⟩
  · rcases ha with ha | ha
    · rcases mem_cons.mp ha with rfl | ha
      · exact hrch
      · exact h.reached a (.inl ha)
    · rcases mem_append.mp ha with ha | ha
      · exact hrch.tail (mem_reverse.mp ha)
      · exact h.reached a (.inr (mem_cons_of_mem _ ha))
  · rcases mem_cons.mp ha with rfl | ha
    · exact .inr (mem_append_left _ (mem_reverse.mpr hb))
    · exact hmem (h.closed a ha b hb)
  · rw [mem_cons, not_or]
    exact ⟨hgoal.symm, h.notGoal⟩

/-- With nothing pending, everything that can be reached was seen. -/
theorem Searched.finish {visited : List α} (h : Searched next goal start [] visited) :
    ¬ ReflTransGen (Edge next) start goal := by
  have hall : ∀ a, ReflTransGen (Edge next) start a → a ∈ visited := by
    intro a ha
    induction ha with
    | refl => exact h.first.resolve_right not_mem_nil
    | tail _ hedge ih => exact (h.closed _ ih _ hedge).resolve_right not_mem_nil
  exact fun hrch => h.notGoal (hall goal hrch)

/-- The number of turns that can still come: what is pending, and what the nodes that can still be
seen may push. -/
def turns (width bound : Nat) (pending visited : List α) : Nat :=
  pending.length + (bound - visited.length) * width

theorem search_iff [DecidableEq α] {bound width : Nat} {targets : List α}
    (htgts : ∀ a, ReflTransGen (Edge next) start a → a ∈ targets) (hbnd : targets.length < bound)
    (hwidth : ∀ a, (next a).length ≤ width) (fuel : Nat) : ∀ {pending visited : List α},
      Searched next goal start pending visited → turns width bound pending visited ≤ fuel →
      ∃ found, search next goal bound fuel pending visited = some found ∧
        (found = true ↔ ReflTransGen (Edge next) start goal) := by
  induction fuel with
  | zero =>
    intro pending visited h hfuel
    have hnil : pending = [] := by
      unfold turns at hfuel
      exact length_eq_zero_iff.mp (by omega)
    subst hnil
    exact ⟨false, rfl, by simpa using h.finish⟩
  | succ fuel ih =>
    intro pending visited h hfuel
    cases pending with
    | nil => exact ⟨false, rfl, by simpa using h.finish⟩
    | cons node pending =>
      unfold search
      by_cases hgoal : node = goal
      · rw [if_pos hgoal]
        refine ⟨true, rfl, ?_⟩
        simpa using hgoal ▸ h.reached node (.inr mem_cons_self)
      · rw [if_neg hgoal]
        have hle : visited.length < bound := by
          have hsub : visited ⊆ targets := fun a ha => htgts a (h.reached a (.inl ha))
          exact Nat.lt_of_le_of_lt (h.nodup.subperm hsub).length_le hbnd
        unfold turns at hfuel
        rw [length_cons] at hfuel
        by_cases hnode : node ∈ visited
        · rw [if_pos hnode]
          refine ih (h.skip hnode) ?_
          unfold turns
          omega
        · rw [if_neg hnode, if_neg (Nat.ne_of_lt hle)]
          refine ih (h.visit hgoal hnode) ?_
          unfold turns
          rw [length_append, length_reverse, length_cons]
          have hnext := hwidth node
          have hspl : (bound - visited.length) * width =
              (bound - (visited.length + 1)) * width + width := by
            rw [← Nat.succ_mul]
            congr 1
            omega
          omega

end Search

/-! ## Acyclic graphs -/

section Acyclic

/-- No node leads back to itself. -/
def Acyclic (r : α → α → Prop) : Prop := ∀ a, ¬ TransGen r a a

theorem Acyclic.mono {r r' : α → α → Prop} (h : Acyclic r) (hsub : ∀ a b, r' a b → r a b) :
    Acyclic r' :=
  fun a hcyc => h a (TransGen.mono hsub _ _ hcyc)

variable {r r' : α → α → Prop} {x : α} {p : α → Prop}

/-- From a new target, the old edges are all there is: the way back is not there. -/
theorem reaches_of_new (hnew : ∀ a b, r' a b → r a b ∨ a = x ∧ p b)
    (hback : ∀ y, p y → ¬ ReflTransGen r y x) {y b : α} (hy : p y) (h : ReflTransGen r' y b) :
    ReflTransGen r y b := by
  induction h with
  | refl => exact .refl
  | tail _ hedge ih =>
    rcases hnew _ _ hedge with hold | ⟨rfl, -⟩
    · exact ih.tail hold
    · exact absurd ih (hback y hy)

/-- A way that uses a new edge goes through the node it leaves. -/
theorem path_cases (hnew : ∀ a b, r' a b → r a b ∨ a = x ∧ p b) {a b : α}
    (h : TransGen r' a b) : TransGen r a b ∨ ∃ y, p y ∧ ReflTransGen r' a x ∧ ReflTransGen r' y b := by
  induction h with
  | single hedge =>
    rcases hnew _ _ hedge with hold | ⟨rfl, hy⟩
    · exact .inl (.single hold)
    · exact .inr ⟨_, hy, .refl, .refl⟩
  | tail hpath hedge ih =>
    rcases hnew _ _ hedge with hold | ⟨rfl, hy⟩
    · rcases ih with hpath' | ⟨y, hy, hto, hfrom⟩
      · exact .inl (hpath'.tail hold)
      · exact .inr ⟨y, hy, hto, hfrom.tail hedge⟩
    · exact .inr ⟨_, hy, hpath.to_reflTransGen, .refl⟩

theorem Acyclic.add (h : Acyclic r) (hnew : ∀ a b, r' a b → r a b ∨ a = x ∧ p b)
    (hback : ∀ y, p y → ¬ ReflTransGen r y x) : Acyclic r' := by
  intro a hcyc
  rcases path_cases hnew hcyc with hold | ⟨y, hy, hto, hfrom⟩
  · exact h a hold
  · exact hback y hy (reaches_of_new hnew hback hy (hfrom.trans hto))

/-- An edge closes a cycle exactly when its end leads back to its start. -/
theorem add_closes (hold : ∀ a b, r a b → r' a b) {y : α} (hedge : r' x y)
    (hback : ReflTransGen r y x) : ¬ Acyclic r' := by
  intro hacyc
  exact hacyc x (.head' hedge (ReflTransGen.mono hold _ _ hback))

end Acyclic

end Lib
