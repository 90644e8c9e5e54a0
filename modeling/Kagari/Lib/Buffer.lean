import Mathlib.Data.List.Basic
import Mathlib.Order.Lattice

/-!
# Buffers

A list with the room that was allocated for it. Only a reservation allocates; the allocator answers it with
the capacity that it gives.
-/

namespace Lib

structure Buffer (α : Type) where
  items : List α
  capacity : Nat
  fits : items.length ≤ capacity

namespace Buffer

variable {α : Type}

def empty : Buffer α := ⟨[], 0, Nat.le_refl 0⟩

/-- A push into the room there is. -/
def push (b : Buffer α) (a : α) : Option (Buffer α) :=
  if h : b.items.length < b.capacity then some ⟨b.items ++ [a], b.capacity, by rwa [List.length_append]⟩ else none

/-- Room for as many further items. -/
def reserve (b : Buffer α) (grown : Option Nat) (additional : Nat) : Option (Buffer α) :=
  if b.items.length + additional ≤ b.capacity then some b
  else grown.map fun capacity => ⟨b.items, max capacity (b.items.length + additional), by omega⟩

def shrinkTo (b : Buffer α) (minimum : Nat) : Buffer α :=
  if max b.items.length minimum < b.capacity then ⟨b.items, max b.items.length minimum, le_max_left _ _⟩ else b

def popFront (b : Buffer α) : Option (α × Buffer α) :=
  match b with
  | ⟨a :: items, capacity, fits⟩ => some (a, ⟨items, capacity, Nat.le_of_succ_le fits⟩)
  | ⟨[], _, _⟩ => none

theorem fits_swapRemove (b : Buffer α) (i : Nat) (last : α) :
    ((b.items.set i last).dropLast).length ≤ b.capacity := by
  have := b.fits
  simp
  omega

/-- The last item takes the place of the removed one. -/
def swapRemove (b : Buffer α) (i : Nat) : Option (Buffer α) :=
  match b.items.getLast? with
  | some last =>
    if i < b.items.length then
      some ⟨(b.items.set i last).dropLast, b.capacity, b.fits_swapRemove i last⟩
    else none
  | none => none

variable {b : Buffer α}

theorem push_spec (h : b.items.length < b.capacity) (a : α) :
    ∃ b', b.push a = some b' ∧ b'.items = b.items ++ [a] ∧ b'.capacity = b.capacity :=
  ⟨_, dif_pos h, rfl, rfl⟩

theorem reserve_spec {b b' : Buffer α} {grown : Option Nat} {additional : Nat}
    (h : b.reserve grown additional = some b') : b'.items = b.items ∧ b.capacity ≤ b'.capacity ∧
      b.items.length + additional ≤ b'.capacity := by
  unfold reserve at h
  split at h
  · rename_i hle
    cases h
    exact ⟨rfl, Nat.le_refl _, hle⟩
  · rename_i hlt
    obtain ⟨capacity, -, rfl⟩ := Option.map_eq_some_iff.mp h
    refine ⟨rfl, ?_, le_max_right _ _⟩
    dsimp only
    omega

@[simp] theorem shrinkTo_items (b : Buffer α) (minimum : Nat) : (b.shrinkTo minimum).items = b.items := by
  unfold shrinkTo
  split <;> rfl

theorem le_shrinkTo {n minimum : Nat} (h : n ≤ b.capacity) (hmin : n ≤ minimum) :
    n ≤ (b.shrinkTo minimum).capacity := by
  unfold shrinkTo
  split
  · exact hmin.trans (le_max_right _ _)
  · exact h

theorem popFront_spec {b b' : Buffer α} {a : α} (h : b.popFront = some (a, b')) :
    b.items = a :: b'.items ∧ b'.capacity = b.capacity := by
  unfold popFront at h
  split at h
  · cases h
    exact ⟨rfl, rfl⟩
  · cases h

theorem swapRemove_spec {i : Nat} (h : i < b.items.length) :
    ∃ b', b.swapRemove i = some b' ∧ b'.items.length + 1 = b.items.length ∧ b'.capacity = b.capacity ∧
      ∀ j : Nat, b'.items[j]? = if j < b'.items.length then
        (if j = i then b.items[b'.items.length]? else b.items[j]?) else none := by
  have hne : b.items ≠ [] := List.ne_nil_of_length_pos (Nat.zero_lt_of_lt h)
  have hlast : b.items.getLast? = b.items[b.items.length - 1]? := List.getLast?_eq_getElem?
  obtain ⟨last, hget⟩ : ∃ last, b.items.getLast? = some last := ⟨_, List.getLast?_eq_some_getLast hne⟩
  have hlen : ((b.items.set i last).dropLast).length = b.items.length - 1 := by simp
  unfold swapRemove
  rw [hget]
  dsimp only
  refine ⟨_, if_pos h, ?_, rfl, fun j => ?_⟩
  · dsimp only
    omega
  · dsimp only
    rw [hlen, ← hlast, hget, List.getElem?_dropLast, List.length_set]
    split
    · rw [List.getElem?_set]
      by_cases hij : i = j
      · rw [if_pos hij, if_pos h, if_pos hij.symm]
      · rw [if_neg hij, if_neg (Ne.symm hij)]
    · rfl

end Buffer

end Lib
