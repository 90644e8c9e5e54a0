import Mathlib.Data.List.Nodup

/-!
# Lists with an index

An interner holds its items in a list and finds the position of an item in a map. `Indexed` says that
the map is the inverse of the list; an item that is not there yet is pushed with its position.
-/

namespace Lib

open Function

variable {α : Type}

/-- The map gives exactly the positions of the items. -/
def Indexed (items : List α) (index : α → Option Nat) : Prop :=
  ∀ a k, index a = some k ↔ items[k]? = some a

variable {a : α}

namespace Indexed

variable {items : List α} {index : α → Option Nat}

theorem empty : Indexed ([] : List α) (fun _ => none) := by
  intro a k
  simp

theorem injective (h : Indexed items index) {j k : Nat} (hj : items[j]? = some a)
    (hk : items[k]? = some a) : j = k :=
  Option.some.inj (((h a j).mpr hj).symm.trans ((h a k).mpr hk))

theorem not_mem (h : Indexed items index) (ha : index a = none) : a ∉ items := by
  intro hmem
  obtain ⟨k, hk⟩ := List.mem_iff_getElem?.mp hmem
  rw [(h a k).mpr hk] at ha
  cases ha

theorem push [DecidableEq α] (h : Indexed items index) (ha : index a = none) :
    Indexed (items ++ [a]) (update index a (some items.length)) := by
  intro b k
  rcases Nat.lt_trichotomy k items.length with hk | rfl | hk
  · rw [List.getElem?_append_left hk]
    by_cases hb : b = a
    · subst hb
      rw [update_self]
      constructor
      · intro heq
        exact absurd (Option.some.inj heq) (Nat.ne_of_gt hk)
      · intro hget
        exact absurd (List.mem_of_getElem? hget) (h.not_mem ha)
    · rw [update_of_ne hb]
      exact h b k
  · by_cases hb : b = a
    · subst hb
      simp
    · rw [update_of_ne hb, h b]
      simp [Ne.symm hb]
  · rw [List.getElem?_eq_none (by simp; omega)]
    by_cases hb : b = a
    · subst hb
      simp only [update_self, Option.some.injEq, reduceCtorEq, iff_false]
      omega
    · rw [update_of_ne hb, h b, List.getElem?_eq_none (Nat.le_of_lt hk)]

end Indexed

theorem get_of_grows {items more : List α} (h : items <+: more) {k : Nat}
    (hk : items[k]? = some a) : more[k]? = some a := by
  obtain ⟨hlt, rfl⟩ := List.getElem?_eq_some_iff.mp hk
  exact List.prefix_iff_getElem?.mp h k hlt

end Lib
