import Mathlib.Order.Lattice

/-!
# Binary heaps in an array

The first `n` cells of an array, read as `f : Nat → K`, form a heap from `lo` on when no cell at
or above `lo` is below one of its children. `Sifting` is the state of a sift: every cell is in
order but the one being moved down.

- `Sifting.descend` and `Sifting.settle`: one turn of a sift, and its end
- `HeapFrom.root_le`: the first cell of a whole heap is its greatest
-/

namespace Lib

/-- `f` with the cells `i` and `j` exchanged. -/
def exchange {α : Type*} (f : Nat → α) (i j : Nat) : Nat → α :=
  fun k => if k = i then f j else if k = j then f i else f k

variable {α : Type*}

theorem exchange_left (f : Nat → α) (i j : Nat) : exchange f i j i = f j := by
  simp [exchange]

theorem exchange_right (f : Nat → α) (i j : Nat) : exchange f i j j = f i := by
  unfold exchange
  by_cases h : j = i
  · rw [if_pos h, h]
  · rw [if_neg h, if_pos rfl]

theorem exchange_of_ne (f : Nat → α) {i j k : Nat} (hi : k ≠ i) (hj : k ≠ j) :
    exchange f i j k = f k := by
  simp [exchange, hi, hj]

theorem getElem!_swapIfInBounds [Inhabited α] {a : Array α} {i j : Nat}
    (hi : i < a.size) (hj : j < a.size) :
    (fun k => (a.swapIfInBounds i j)[k]!) = exchange (fun k => a[k]!) i j := by
  funext k
  unfold exchange
  rw [Array.swapIfInBounds, dif_pos hi, dif_pos hj]
  by_cases hk : k < a.size
  · rw [getElem!_pos _ k (by simpa using hk), Array.getElem_swap]
    by_cases hki : k = i
    · rw [if_pos hki, if_pos hki]
      exact (getElem!_pos a j hj).symm
    · rw [if_neg hki, if_neg hki]
      by_cases hkj : k = j
      · rw [if_pos hkj, if_pos hkj]
        exact (getElem!_pos a i hi).symm
      · rw [if_neg hkj, if_neg hkj]
        exact (getElem!_pos a k hk).symm
  · rw [getElem!_neg _ k (by simpa using hk), if_neg (by omega), if_neg (by omega)]
    exact (getElem!_neg a k hk).symm

/-- `c` is a child of `p`. -/
def IsChild (c p : Nat) : Prop := c = 2 * p + 1 ∨ c = 2 * p + 2

section

variable {K : Type*} [LinearOrder K] {f : Nat → K} {n lo root : Nat}

/-- No cell from `lo` on is below one of its children. -/
def HeapFrom (f : Nat → K) (n lo : Nat) : Prop :=
  ∀ p c, lo ≤ p → IsChild c p → c < n → f c ≤ f p

/-- A heap but for the cell `root`, whose children are already below its parent. -/
structure Sifting (f : Nat → K) (n lo root : Nat) : Prop where
  others : ∀ p c, lo ≤ p → p ≠ root → IsChild c p → c < n → f c ≤ f p
  grand : ∀ p c, lo ≤ p → IsChild root p → IsChild c root → c < n → f c ≤ f p

/-- At the start of a sift, everything behind the root is in order. -/
theorem HeapFrom.sifting (h : HeapFrom f n (lo + 1)) : Sifting f n lo lo := by
  refine ⟨fun p c hp hne hc hcn => h p c (by omega) hc hcn, fun p c hp hroot => ?_⟩
  unfold IsChild at hroot
  omega

/-- The root goes down to its greater child. -/
theorem Sifting.descend (h : Sifting f n lo root) {child : Nat} (hlo : lo ≤ root)
    (hch : IsChild child root) (hn : child < n)
    (hgreatest : ∀ c, IsChild c root → c < n → f c ≤ f child) (hup : f root ≤ f child) :
    Sifting (exchange f root child) n lo child := by
  have hlt : root < child := by
    unfold IsChild at hch
    omega
  refine ⟨fun p c hp hne hc hcn => ?_, fun p c hp hpar hc hcn => ?_⟩
  · have hcp : p < c := by
      unfold IsChild at hc
      omega
    by_cases hpr : p = root
    · subst hpr
      rw [exchange_left]
      by_cases hcc : c = child
      · rw [hcc, exchange_right]
        exact hup
      · rw [exchange_of_ne f (by omega) hcc]
        exact hgreatest c hc hcn
    · rw [exchange_of_ne f hpr hne]
      by_cases hcr : c = root
      · subst hcr
        rw [exchange_left]
        exact h.grand p child hp hc hch hn
      · have hcc : c ≠ child := by
          intro heq
          unfold IsChild at hc hch
          omega
        rw [exchange_of_ne f hcr hcc]
        exact h.others p c hp hpr hc hcn
  · have hpr : p = root := by
      unfold IsChild at hpar hch
      omega
    subst hpr
    have hcc : child < c := by
      unfold IsChild at hc
      omega
    rw [exchange_left, exchange_of_ne f (by omega) (by omega)]
    exact h.others child c (by omega) (by omega) hc hcn

/-- A root that is not below its children ends the sift. -/
theorem Sifting.settle (h : Sifting f n lo root)
    (hroot : ∀ c, IsChild c root → c < n → f c ≤ f root) : HeapFrom f n lo := by
  intro p c hp hc hcn
  by_cases hpr : p = root
  · subst hpr
    exact hroot c hc hcn
  · exact h.others p c hp hpr hc hcn

/-- The first cell of a heap is its greatest. -/
theorem HeapFrom.root_le (h : HeapFrom f n 0) : ∀ i, i < n → f i ≤ f 0 := by
  intro i
  induction i using Nat.strongRecOn with
  | ind i ih =>
    intro hi
    by_cases h0 : i = 0
    · rw [h0]
    · have hch : IsChild i ((i - 1) / 2) := by
        unfold IsChild
        omega
      exact le_trans (h _ i (Nat.zero_le _) hch hi) (ih _ (by omega) (by omega))

end

end Lib
