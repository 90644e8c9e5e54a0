import Mathlib.Data.List.Basic

/-!
# Tilings of a range

Ranges one after another, from a number to another. Every number between is in one of them
(`Consecutive.count_inside`), also after their ends are moved by a monotone function (`Consecutive.map`).
-/

namespace Lib.Tiling

/-- Each range begins where the one before ends. -/
def Consecutive : Nat → Nat → List (Nat × Nat) → Prop
  | lo, hi, [] => lo = hi
  | lo, hi, (start, stop) :: rest => start = lo ∧ lo ≤ stop ∧ Consecutive stop hi rest

instance Consecutive.decidable : ∀ lo hi ranges, Decidable (Consecutive lo hi ranges)
  | lo, hi, [] => inferInstanceAs (Decidable (lo = hi))
  | lo, hi, (start, stop) :: rest =>
    have := Consecutive.decidable stop hi rest
    inferInstanceAs (Decidable (start = lo ∧ lo ≤ stop ∧ Consecutive stop hi rest))

variable {lo hi x : Nat} {ranges : List (Nat × Nat)}

theorem Consecutive.le (h : Consecutive lo hi ranges) : lo ≤ hi := by
  induction ranges generalizing lo with
  | nil => exact Nat.le_of_eq h
  | cons range rest ih => exact Nat.le_trans h.2.1 (ih h.2.2)

theorem Consecutive.ordered (h : Consecutive lo hi ranges) : ∀ range ∈ ranges, range.1 ≤ range.2 := by
  induction ranges generalizing lo with
  | nil => exact nofun
  | cons range rest ih =>
    obtain ⟨rfl, hle, hrest⟩ := h
    intro other hmem
    rcases List.mem_cons.1 hmem with rfl | hmem
    · exact hle
    · exact ih hrest other hmem

/-- Every range is between the ends. -/
theorem Consecutive.inside (h : Consecutive lo hi ranges) : ∀ range ∈ ranges, lo ≤ range.1 ∧ range.2 ≤ hi := by
  induction ranges generalizing lo with
  | nil => exact nofun
  | cons range rest ih =>
    obtain ⟨rfl, hle, hrest⟩ := h
    intro other hmem
    rcases List.mem_cons.1 hmem with rfl | hmem
    · exact ⟨Nat.le_refl _, hrest.le⟩
    · exact ⟨Nat.le_trans hle (ih hrest other hmem).1, (ih hrest other hmem).2⟩

/-- No two ranges share a number. -/
theorem Consecutive.apart (h : Consecutive lo hi ranges) : ranges.Pairwise fun a b => a.2 ≤ b.1 := by
  induction ranges generalizing lo with
  | nil => exact .nil
  | cons range rest ih =>
    obtain ⟨rfl, -, hrest⟩ := h
    exact .cons (fun other hmem => (hrest.inside other hmem).1) (ih hrest)

theorem Consecutive.append {mid : Nat} {others : List (Nat × Nat)} (h : Consecutive lo mid ranges)
    (hoths : Consecutive mid hi others) : Consecutive lo hi (ranges ++ others) := by
  induction ranges generalizing lo with
  | nil =>
    obtain rfl : lo = mid := h
    exact hoths
  | cons range rest ih =>
    obtain ⟨rfl, hle, hrest⟩ := h
    exact ⟨rfl, hle, ih hrest⟩

/-- Empty ranges may be left out. -/
theorem Consecutive.filter (h : Consecutive lo hi ranges) :
    Consecutive lo hi (ranges.filter fun range => range.1 < range.2) := by
  induction ranges generalizing lo with
  | nil => exact h
  | cons range rest ih =>
    obtain ⟨start, stop⟩ := range
    obtain ⟨rfl, hle, hrest⟩ := h
    rw [List.filter_cons]
    split
    · exact ⟨rfl, hle, ih hrest⟩
    next hemp =>
      obtain rfl : start = stop := by
        simp only [decide_eq_true_eq] at hemp
        omega
      exact ih hrest

theorem Consecutive.map {f : Nat → Nat} (hf : ∀ i j, i ≤ j → j ≤ hi → f i ≤ f j) (h : Consecutive lo hi ranges) :
    Consecutive (f lo) (f hi) (ranges.map fun range => (f range.1, f range.2)) := by
  induction ranges generalizing lo with
  | nil => exact congrArg f h
  | cons range rest ih =>
    obtain ⟨start, stop⟩ := range
    obtain ⟨rfl, hle, hrest⟩ := h
    exact ⟨rfl, hf _ _ hle hrest.le, ih hrest⟩

theorem Consecutive.count_before (h : Consecutive lo hi ranges) (hx : x < lo) :
    ranges.countP (fun range => range.1 ≤ x ∧ x < range.2) = 0 := by
  induction ranges generalizing lo with
  | nil => rfl
  | cons range rest ih =>
    obtain ⟨start, stop⟩ := range
    obtain ⟨rfl, hle, hrest⟩ := h
    rw [List.countP_cons_of_neg (by simp; omega)]
    exact ih hrest (by omega)

/-- Each number is in one range. -/
theorem Consecutive.count_inside (h : Consecutive lo hi ranges) (hlo : lo ≤ x) (hhi : x < hi) :
    ranges.countP (fun range => range.1 ≤ x ∧ x < range.2) = 1 := by
  induction ranges generalizing lo with
  | nil =>
    obtain rfl : lo = hi := h
    omega
  | cons range rest ih =>
    obtain ⟨start, stop⟩ := range
    obtain ⟨rfl, hle, hrest⟩ := h
    by_cases hx : x < stop
    · rw [List.countP_cons_of_pos (by simp; omega), hrest.count_before hx]
    · rw [List.countP_cons_of_neg (by simp; omega)]
      exact ih hrest (by omega)

end Lib.Tiling
