import Kagari.Lib.Checked

/-!
# Collecting visits

`Collects seen names good m items`: a run of `m` that returns has added to what was seen exactly the
names of the items, and every item is good. The items of a sequence of computations add up; only which
items there are counts (`Collects.congr`).
-/

namespace Lib

variable {σ ε α β ι π : Type} {seen : σ → List ι} {names : π → List ι} {good : π → Prop}

def Collects (seen : σ → List ι) (names : π → List ι) (good : π → Prop) (m : StateT σ (Except ε) α)
    (items : List π) : Prop :=
  ∀ s s' a, m.run s = .ok (a, s') →
    (∀ i, i ∈ seen s' ↔ i ∈ seen s ∨ ∃ p ∈ items, i ∈ names p) ∧ ∀ p ∈ items, good p

namespace Collects

variable {m : StateT σ (Except ε) α} {items items' : List π}

theorem pure {a : α} : Collects seen names good (Pure.pure a : StateT σ (Except ε) α) [] := by
  intro s s' b hrun
  rw [← (Prod.mk.inj (Except.ok.inj hrun)).2]
  simp

theorem throw {e : ε} : Collects seen names good (MonadExcept.throw e : StateT σ (Except ε) α) items :=
  fun _ _ _ => nofun

theorem congr (hm : Collects seen names good m items) (h : ∀ p, p ∈ items' ↔ p ∈ items) :
    Collects seen names good m items' := by
  intro s s' a hrun
  obtain ⟨hseen, hgood⟩ := hm s s' a hrun
  simp only [h]
  exact ⟨hseen, hgood⟩

variable {f : α → StateT σ (Except ε) β}

theorem bind (hm : Collects seen names good m items)
    (hf : ∀ a, Collects seen names good (f a) items') : Collects seen names good (m >>= f) (items ++ items') := by
  intro s s' b hrun
  rw [StateT.run_bind] at hrun
  obtain ⟨⟨a, t⟩, hfst, hrest⟩ := bind_ok.mp hrun
  obtain ⟨hseen, hgood⟩ := hm s t a hfst
  obtain ⟨hseen', hgood'⟩ := hf a t s' b hrest
  refine ⟨fun i => ?_, List.forall_mem_append.mpr ⟨hgood, hgood'⟩⟩
  rw [hseen' i, hseen i, or_assoc]
  simp only [List.mem_append, or_and_right, exists_or]

/-- A part that does not use the state, and whose value does. -/
theorem lift {x : Except ε α}
    (hf : ∀ a, x = .ok a → Collects seen names good (f a) items) :
    Collects seen names good (liftM x >>= f) items := by
  intro s s' b hrun
  rw [StateT.run_bind] at hrun
  obtain ⟨⟨a, t⟩, hfst, hrest⟩ := bind_ok.mp hrun
  cases x with
  | error e => cases hfst
  | ok value =>
    obtain ⟨rfl, rfl⟩ := Prod.mk.inj (Except.ok.inj hfst)
    exact hf value rfl s s' b hrest

theorem forM {f : α → StateT σ (Except ε) PUnit} {g : α → List π} {l : List α}
    (h : ∀ a ∈ l, Collects seen names good (f a) (g a)) :
    Collects seen names good (l.forM f) (l.flatMap g) := by
  induction l with
  | nil => exact pure
  | cons a l ih =>
    obtain ⟨hhead, htail⟩ := List.forall_mem_cons.mp h
    exact bind hhead fun _ => ih htail

end Collects

end Lib
