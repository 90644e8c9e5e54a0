import Mathlib.Order.FixedPoints
import Mathlib.Order.CompletePartialOrder

/-!
# Worklists

A worklist algorithm lowers an assignment `X : ι → L` one index at a time towards the greatest
fixed point of a monotone system of equations `F`. `Descending F X pending` is what holds between
two turns: `X` is above every solution, it can only be lowered further, and the indices that are
not pending already satisfy their equation.

- `Descending.top`: the start, with everything pending
- `Descending.lower`: one turn, whatever index it takes
- `Descending.eq_gfp`: the end, with nothing pending
-/

namespace Lib

open Function

variable {ι L : Type*} [CompleteLattice L] {F : (ι → L) →o (ι → L)}

/-- The state of a worklist run that has `pending` left to do. -/
structure Descending (F : (ι → L) →o (ι → L)) (X : ι → L) (pending : Set ι) : Prop where
  /-- No solution is lost. -/
  above : F.gfp ≤ X
  /-- Every equation would lower its index, if anything. -/
  lowers : F X ≤ X
  /-- An index that is not pending has nothing left to lower. -/
  settled : ∀ b, b ∉ pending → X b ≤ F X b

variable {X : ι → L} {pending : Set ι}

namespace Descending

theorem top (h : ∀ b, b ∉ pending → ⊤ ≤ F ⊤ b) : Descending F ⊤ pending :=
  ⟨le_top, le_top, h⟩

/-- Settling one index. The indices whose equation reads it become pending, unless its value stays
as it was. -/
theorem lower [DecidableEq ι] {pending pending' : Set ι} (h : Descending F X pending)
    (b : ι)
    (hoths : ∀ c, c ≠ b → c ∉ pending' → c ∉ pending)
    (hrd : ∀ c, c ∉ pending' → F (update X b (F X b)) c = F X c) :
    Descending F (update X b (F X b)) pending' := by
  have hle : update X b (F X b) ≤ X := by
    intro c
    by_cases hc : c = b
    · subst hc
      rw [update_self]
      exact h.lowers c
    · rw [update_of_ne hc]
  refine ⟨?_, ?_, ?_⟩
  · intro c
    by_cases hc : c = b
    · subst hc
      rw [update_self]
      calc F.gfp c = F F.gfp c := by rw [F.map_gfp]
        _ ≤ F X c := F.mono h.above c
    · rw [update_of_ne hc]
      exact h.above c
  · intro c
    have hmono : F (update X b (F X b)) c ≤ F X c := F.mono hle c
    by_cases hc : c = b
    · subst hc
      rw [update_self]
      exact hmono
    · rw [update_of_ne hc]
      exact hmono.trans (h.lowers c)
  · intro c hpend
    rw [hrd c hpend]
    by_cases hc : c = b
    · subst hc
      rw [update_self]
    · rw [update_of_ne hc]
      exact h.settled c (hoths c hc hpend)

/-- With nothing pending, the assignment is the greatest solution. -/
theorem eq_gfp (h : Descending F X pending)
    (hdone : ∀ b, b ∉ pending) : X = F.gfp := by
  refine le_antisymm ?_ h.above
  exact F.le_gfp (fun b => h.settled b (hdone b))

end Descending

end Lib
