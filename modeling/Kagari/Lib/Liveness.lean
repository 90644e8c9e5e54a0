import Mathlib.Data.Set.Basic

/-!
# Liveness along paths

A graph whose points read and write slots. `Live p x`: some path from `p` reads `x` before it
writes it. Reads at a point come before its writes.

- `Live.iff`: the backward equation
- `Live.mem_of_equations`: a solution of the equations on a closed part of the graph has every
  live slot
-/

namespace Lib

variable {ι S : Type*} (reads writes : ι → Set S) (next : ι → ι → Prop)

/-- Some path from the point reads the slot before it writes it. -/
inductive Live : ι → S → Prop
  | here {p : ι} {x : S} : x ∈ reads p → Live p x
  | later {p q : ι} {x : S} : x ∉ writes p → next p q → Live q x → Live p x

variable {x : S}

namespace Live

variable {reads writes next}

theorem iff {p : ι} : Live reads writes next p x ↔
    x ∈ reads p ∨ (x ∉ writes p ∧ ∃ q, next p q ∧ Live reads writes next q x) := by
  constructor
  · intro h
    cases h with
    | here hread => exact .inl hread
    | later hkept hnext hlive => exact .inr ⟨hkept, _, hnext, hlive⟩
  · rintro (hread | ⟨hkept, q, hnext, hlive⟩)
    · exact .here hread
    · exact .later hkept hnext hlive

/-- A point whose only next point is `q`. -/
theorem iff_of_single {p q : ι} (h : ∀ r, next p r ↔ r = q) :
    Live reads writes next p x ↔
      x ∈ reads p ∨ (x ∉ writes p ∧ Live reads writes next q x) := by
  rw [iff]
  simp [h]

/-- What some path reads is in every solution of the equations. -/
theorem mem_of_equations {X : ι → Set S} {scope : Set ι}
    (hclos : ∀ p ∈ scope, ∀ q, next p q → q ∈ scope)
    (hrd : ∀ p ∈ scope, reads p ⊆ X p)
    (hnext : ∀ p ∈ scope, ∀ q, next p q → ∀ x ∈ X q, x ∉ writes p → x ∈ X p)
    {p : ι} (h : Live reads writes next p x) : p ∈ scope → x ∈ X p := by
  induction h with
  | here hread => exact fun hp => hrd _ hp hread
  | @later p q x hkept hstep _ ih => exact fun hp => hnext p hp q hstep x (ih (hclos p hp q hstep)) hkept

end Live

end Lib
