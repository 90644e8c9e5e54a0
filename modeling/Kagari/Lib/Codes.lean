import Mathlib.Data.List.Basic

/-!
# Prefix codes

A `Code` writes a value as a list of bytes and carries the proof that what is written can be told apart
from whatever follows it. So codes can be put one behind another: there is one for fixed-width numbers, and
one for each way of building a type from others.

A number is written in little-endian order; its last byte carries all that is left of the number, which is
a byte where the number fits.
-/

namespace Lib

structure Code (α : Type) where
  write : α → List Nat
  separates : ∀ {a b : α} {s t : List Nat}, write a ++ s = write b ++ t → a = b ∧ s = t

namespace Code

variable {α β : Type}

variable (c : Code α)

theorem injective : Function.Injective c.write := by
  intro a b h
  exact (c.separates (s := []) (t := []) (by rw [h])).1

def unit : Code Unit where
  write _ := []
  separates h := ⟨rfl, h⟩

/-- A value through an injective view of it: for a record, the tuple of all its fields. -/
def comap (c : Code α) (f : β → α)
    (hf : Function.Injective f := by intro a b h; cases a; cases b; cases h; rfl) : Code β where
  write b := c.write (f b)
  separates h := (c.separates h).imp_left fun heq => hf heq

def pair (c : Code α) (d : Code β) : Code (α × β) where
  write p := c.write p.1 ++ d.write p.2
  separates := by
    intro p q s t h
    rw [List.append_assoc, List.append_assoc] at h
    obtain ⟨hfst, h⟩ := c.separates h
    obtain ⟨hsnd, h⟩ := d.separates h
    exact ⟨Prod.ext hfst hsnd, h⟩

/-! ## Numbers -/

def littleEndian : Nat → Nat → List Nat
  | 0, n => [n]
  | width + 1, n => n % 256 :: littleEndian width (n / 256)

theorem littleEndian_separates (width : Nat) : ∀ {n m : Nat} {s t : List Nat},
    littleEndian width n ++ s = littleEndian width m ++ t → n = m ∧ s = t := by
  induction width with
  | zero =>
    intro n m s t h
    exact List.cons.inj h
  | succ width ih =>
    intro n m s t h
    obtain ⟨hlow, h⟩ := List.cons.inj h
    obtain ⟨hhigh, h⟩ := ih h
    refine ⟨?_, h⟩
    rw [← Nat.div_add_mod n 256, ← Nat.div_add_mod m 256, hlow, hhigh]

/-- Numbers of `width + 1` bytes. -/
def fixed (width : Nat) : Code Nat where
  write := littleEndian width
  separates := littleEndian_separates width

def bool : Code Bool := (fixed 0).comap Bool.toNat fun a b h => by cases a <;> cases b <;> first | rfl | cases h

/-! ## Options, lists and variants -/

def option (c : Code α) : Code (Option α) where
  write
    | none => [0]
    | some a => 1 :: c.write a
  separates := by
    intro a b s t h
    cases a with
    | none =>
      cases b with
      | none => exact ⟨rfl, (List.cons.inj h).2⟩
      | some b => cases h
    | some a =>
      cases b with
      | none => cases h
      | some b => exact (c.separates (List.cons.inj h).2).imp_left (congrArg some)

/-- Items that are as many on both sides. -/
theorem flatMap_separates {l : List α} : ∀ {l' : List α} {s t : List Nat}, l.length = l'.length →
    l.flatMap c.write ++ s = l'.flatMap c.write ++ t → l = l' ∧ s = t := by
  induction l with
  | nil =>
    intro l' s t hlen h
    obtain rfl := List.length_eq_zero_iff.mp hlen.symm
    exact ⟨rfl, h⟩
  | cons a l ih =>
    intro l' s t hlen h
    cases l' with
    | nil => cases hlen
    | cons b l' =>
      rw [List.flatMap_cons, List.flatMap_cons, List.append_assoc, List.append_assoc] at h
      obtain ⟨rfl, hrest⟩ := c.separates h
      obtain ⟨rfl, htail⟩ := ih (Nat.succ.inj hlen) hrest
      exact ⟨rfl, htail⟩

/-- The length in eight bytes, then the items. -/
def list (c : Code α) : Code (List α) where
  write l := (fixed 7).write l.length ++ l.flatMap c.write
  separates := by
    intro l l' s t h
    rw [List.append_assoc, List.append_assoc] at h
    obtain ⟨hlen, h⟩ := (fixed 7).separates h
    exact flatMap_separates c hlen h

/-- The number of the variant in four bytes, then its fields. -/
def variants {P : Nat → Type} (c : ∀ i, Code (P i)) : Code (Σ i, P i) where
  write a := (fixed 3).write a.1 ++ (c a.1).write a.2
  separates := by
    rintro ⟨i, a⟩ ⟨j, b⟩ s t h
    rw [List.append_assoc, List.append_assoc] at h
    obtain ⟨rfl, hflds⟩ := (fixed 3).separates h
    obtain ⟨rfl, hrest⟩ := (c i).separates hflds
    exact ⟨rfl, hrest⟩

/-- An enumeration: each of its variants with a number of its own. -/
def enum {P : Nat → Type} (c : ∀ i, Code (P i)) (f : β → Σ i, P i)
    (hf : ∀ a b, f a = f b → a = b := by
      intro a b h
      have hidx := congrArg Sigma.fst h
      cases a <;> cases b <;> first | (cases hidx; done) | (cases eq_of_heq (Sigma.mk.inj h).2; rfl)) : Code β :=
  (variants c).comap f hf

end Code

end Lib
