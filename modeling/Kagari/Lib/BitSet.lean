import Mathlib.Data.Set.Lattice

/-!
# Bit sets

A set of indices below `w` as a bit vector, with the set it stands for (`toSet`).
-/

namespace Lib.BitSet

variable {w : Nat}

def contains (words : BitVec w) (i : Nat) : Bool := words.getLsbD i

def insert (words : BitVec w) (i : Nat) : BitVec w := words ||| BitVec.twoPow w i

def remove (words : BitVec w) (i : Nat) : BitVec w := words &&& ~~~ BitVec.twoPow w i

/-- The indices of a bit set. -/
def toSet (words : BitVec w) : Set (Fin w) := {i | words.getLsbD i = true}

variable {words : BitVec w} {i : Nat}

theorem contains_iff :
    contains words i = true ↔ ∃ h : i < w, (⟨i, h⟩ : Fin w) ∈ toSet words :=
  ⟨fun h => ⟨BitVec.lt_of_getLsbD h, h⟩, fun ⟨_, h⟩ => h⟩

@[simp] theorem contains_zero (i : Nat) : contains (0#w) i = false := by
  simp [contains]

@[simp] theorem toSet_allOnes : toSet (BitVec.allOnes w) = Set.univ := by
  ext i
  simp [toSet]

variable (a b : BitVec w) {slots : List Nat}

@[simp] theorem toSet_and : toSet (a &&& b) = toSet a ∩ toSet b := by
  ext i
  simp [toSet]

@[simp] theorem toSet_or : toSet (a ||| b) = toSet a ∪ toSet b := by
  ext i
  simp [toSet]

theorem contains_insert {i j : Nat} :
    contains (insert words i) j = true ↔ contains words j = true ∨ (j = i ∧ j < w) := by
  unfold contains insert
  rw [BitVec.getLsbD_or, BitVec.getLsbD_twoPow, Bool.or_eq_true, Bool.and_eq_true,
    decide_eq_true_eq, decide_eq_true_eq]
  constructor
  · rintro (h | ⟨hlt, rfl⟩)
    · exact .inl h
    · exact .inr ⟨rfl, hlt⟩
  · rintro (h | ⟨rfl, hlt⟩)
    · exact .inl h
    · exact .inr ⟨hlt, rfl⟩

theorem contains_foldl_insert : ∀ {words : BitVec w},
    contains (slots.foldl insert words) i = true ↔
      contains words i = true ∨ (i ∈ slots ∧ i < w) := by
  induction slots with
  | nil => simp
  | cons first slots ih =>
    intro words
    rw [List.foldl_cons, ih, contains_insert, List.mem_cons]
    tauto

theorem contains_remove {i j : Nat} :
    contains (remove words i) j = true ↔ contains words j = true ∧ j ≠ i := by
  unfold contains remove
  rw [BitVec.getLsbD_and, BitVec.getLsbD_not, BitVec.getLsbD_twoPow, Bool.and_eq_true]
  constructor
  · rintro ⟨h, hne⟩
    refine ⟨h, ?_⟩
    rintro rfl
    have hlt := BitVec.lt_of_getLsbD h
    simp [hlt] at hne
  · rintro ⟨h, hne⟩
    have hlt := BitVec.lt_of_getLsbD h
    refine ⟨h, ?_⟩
    simp [hlt, Ne.symm hne]

theorem contains_foldl_remove : ∀ {words : BitVec w},
    contains (slots.foldl remove words) i = true ↔ contains words i = true ∧ i ∉ slots := by
  induction slots with
  | nil => simp
  | cons first slots ih =>
    intro words
    rw [List.foldl_cons, ih, contains_remove, List.mem_cons]
    tauto

theorem contains_or {a b : BitVec w} :
    contains (a ||| b) i = true ↔ contains a i = true ∨ contains b i = true := by
  unfold contains
  rw [BitVec.getLsbD_or, Bool.or_eq_true]

theorem contains_and {a b : BitVec w} :
    contains (a &&& b) i = true ↔ contains a i = true ∧ contains b i = true := by
  unfold contains
  rw [BitVec.getLsbD_and, Bool.and_eq_true]

theorem contains_foldl_or {ι : Type} {targets : List ι} {table : ι → BitVec w} :
    ∀ {words : BitVec w}, contains (targets.foldl (fun state next => state ||| table next) words) i =
      true ↔ contains words i = true ∨ ∃ next ∈ targets, contains (table next) i = true := by
  induction targets with
  | nil => simp
  | cons first targets ih =>
    intro words
    rw [List.foldl_cons, ih, contains_or]
    simp only [List.mem_cons, exists_eq_or_imp]
    tauto

/-- The first index that is not in the set, `w` when all are. -/
def missing (words : BitVec w) : Nat := (~~~words).ctz.toNat

theorem eq_allOnes_iff : words = BitVec.allOnes w ↔ ∀ i < w, contains words i = true := by
  constructor
  · rintro rfl i hi
    simp [contains, hi]
  · intro h
    apply BitVec.eq_of_getLsbD_eq
    intro i hi
    rw [BitVec.getLsbD_allOnes, decide_eq_true hi]
    exact h i hi

theorem contains_missing (h : words ≠ BitVec.allOnes w) :
    missing words < w ∧ contains words (missing words) = false := by
  have hnot : ~~~words ≠ 0#w := by
    intro hzero
    refine h ?_
    rw [← BitVec.not_not (b := words), hzero, BitVec.not_zero]
  have htrue := BitVec.getLsbD_true_ctz_of_ne_zero hnot
  have hlt := BitVec.lt_of_getLsbD htrue
  refine ⟨hlt, ?_⟩
  rw [BitVec.getLsbD_not, decide_eq_true hlt, Bool.true_and, Bool.not_eq_true'] at htrue
  exact htrue

theorem contains_of_lt_missing (h : i < missing words) (hi : i < w) :
    contains words i = true := by
  have hfalse := BitVec.getLsbD_false_of_lt_ctz h
  rw [BitVec.getLsbD_not, decide_eq_true hi, Bool.true_and, Bool.not_eq_false'] at hfalse
  exact hfalse

end Lib.BitSet
