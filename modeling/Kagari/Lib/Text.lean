import Mathlib.Algebra.BigOperators.Group.List.Basic
import Mathlib.Algebra.Ring.Nat

/-!
# Byte offsets in UTF-8 text

A text is its list of characters. An offset counts bytes, and a slice between two offsets is defined
when both lie between characters.
-/

namespace Lib.Text

open Option

/-- The bytes of a text. -/
def size (text : List Char) : Nat := (text.map Char.utf8Size).sum

/-- `&text[n..]`. -/
def dropBytes : List Char → Nat → Option (List Char)
  | text, 0 => some text
  | [], _ + 1 => none
  | ch :: rest, n + 1 => if ch.utf8Size ≤ n + 1 then dropBytes rest (n + 1 - ch.utf8Size) else none

/-- `&text[..n]`. -/
def takeBytes : List Char → Nat → Option (List Char)
  | _, 0 => some []
  | [], _ + 1 => none
  | ch :: rest, n + 1 =>
    if ch.utf8Size ≤ n + 1 then (takeBytes rest (n + 1 - ch.utf8Size)).map (ch :: ·) else none

/-- `&text[start..stop]`. -/
def slice (text : List Char) (start stop : Nat) : Option (List Char) :=
  if stop < start then none else (dropBytes text start).bind fun rest => takeBytes rest (stop - start)

/-- An offset between characters. -/
def Boundary (text : List Char) (offset : Nat) : Prop :=
  ∃ left right, text = left ++ right ∧ offset = size left

@[simp]
theorem size_nil : size [] = 0 := rfl

@[simp]
theorem size_cons (ch : Char) (text : List Char) : size (ch :: text) = ch.utf8Size + size text := by
  unfold size
  rw [List.map_cons, List.sum_cons]

variable (left right : List Char)

@[simp]
theorem size_append : size (left ++ right) = size left + size right := by
  unfold size
  rw [List.map_append, List.sum_append]

theorem size_pos {text : List Char} (h : text ≠ []) : 0 < size text := by
  cases text with
  | nil => exact absurd rfl h
  | cons ch rest =>
    have := ch.utf8Size_pos
    rw [size_cons]
    omega

theorem dropBytes_size : dropBytes (left ++ right) (size left) = some right := by
  induction left with
  | nil =>
    cases right <;> rfl
  | cons ch left ih =>
    obtain ⟨n, hn⟩ := Nat.exists_eq_succ_of_ne_zero (Nat.ne_of_gt ch.utf8Size_pos)
    have hsize : size (ch :: left) = n + size left + 1 := by
      rw [size_cons, hn]
      omega
    rw [hsize, List.cons_append, dropBytes, if_pos (by omega), hn]
    have hrest : n + size left + 1 - n.succ = size left := by omega
    rw [hrest, ih]

theorem takeBytes_size : takeBytes (left ++ right) (size left) = some left := by
  induction left with
  | nil =>
    cases right <;> rfl
  | cons ch left ih =>
    obtain ⟨n, hn⟩ := Nat.exists_eq_succ_of_ne_zero (Nat.ne_of_gt ch.utf8Size_pos)
    have hsize : size (ch :: left) = n + size left + 1 := by
      rw [size_cons, hn]
      omega
    rw [hsize, List.cons_append, takeBytes, if_pos (by omega), hn]
    have hrest : n + size left + 1 - n.succ = size left := by omega
    rw [hrest, ih]
    rfl

/-- The slice of a part of the text. -/
theorem slice_part (left part right : List Char) :
    slice (left ++ (part ++ right)) (size left) (size left + size part) = some part := by
  unfold slice
  rw [if_neg (by omega), dropBytes_size, bind_some, Nat.add_sub_cancel_left, takeBytes_size]

/-- What is left out has the bytes that were dropped. -/
theorem dropBytes_some {text right : List Char} {n : Nat} (h : dropBytes text n = some right) :
    ∃ left, text = left ++ right ∧ size left = n := by
  induction text generalizing n with
  | nil =>
    cases n with
    | zero => exact ⟨[], some.inj h, rfl⟩
    | succ n => cases h
  | cons ch text ih =>
    cases n with
    | zero => exact ⟨[], some.inj h, rfl⟩
    | succ n =>
      rw [dropBytes] at h
      split at h
      · obtain ⟨left, rfl, hsize⟩ := ih h
        exact ⟨ch :: left, rfl, by rw [size_cons, hsize]; omega⟩
      · cases h

theorem takeBytes_some {text left : List Char} {n : Nat} (h : takeBytes text n = some left) :
    ∃ right, text = left ++ right ∧ size left = n := by
  induction text generalizing n left with
  | nil =>
    cases n with
    | zero => exact ⟨[], by rw [← some.inj h]; rfl, by rw [← some.inj h]; rfl⟩
    | succ n => cases h
  | cons ch text ih =>
    cases n with
    | zero => exact ⟨ch :: text, by rw [← some.inj h]; rfl, by rw [← some.inj h]; rfl⟩
    | succ n =>
      rw [takeBytes] at h
      split at h
      · obtain ⟨rest, hrest, rfl⟩ := map_eq_some_iff.mp h
        obtain ⟨right, rfl, hsize⟩ := ih hrest
        exact ⟨right, rfl, by rw [size_cons, hsize]; omega⟩
      · cases h

/-- A slice is a part of the text. -/
theorem slice_some {text part : List Char} {start stop : Nat} (h : slice text start stop = some part) :
    ∃ left right, text = left ++ (part ++ right) ∧ size left = start ∧ start + size part = stop := by
  unfold slice at h
  split at h
  · cases h
  · obtain ⟨rest, hrest, hpart⟩ := bind_eq_some_iff.mp h
    obtain ⟨left, rfl, hleft⟩ := dropBytes_some hrest
    obtain ⟨right, rfl, hsize⟩ := takeBytes_some hpart
    exact ⟨left, right, rfl, hleft, by omega⟩

/-- Two ways to cut a text at the same offset are one. -/
theorem append_inj_size {left left' right right' : List Char} (h : left ++ right = left' ++ right')
    (hsize : size left = size left') : left = left' ∧ right = right' := by
  have hdrop := dropBytes_size left right
  rw [h, hsize, dropBytes_size] at hdrop
  cases hdrop
  exact ⟨List.append_cancel_right h, rfl⟩

end Lib.Text
