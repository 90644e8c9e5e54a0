import Mathlib.Order.Defs.Unbundled

/-!
# Versions

A state counts the changes of what readers see in it: its stamp never goes back, and as long as it is the
same, so is the view (`Keeps`). A reader that remembers the stamp of a state then knows its view as soon as
it meets the stamp again, whatever happened in between (`Keeps.foldl`).
-/

namespace Lib

variable {σ ι α β : Type}

/-- From one state to a later one. -/
structure Keeps (stamp : σ → Nat) (view : σ → α) (s s' : σ) : Prop where
  grows : stamp s ≤ stamp s'
  same : stamp s' = stamp s → view s' = view s

namespace Keeps

variable {stamp : σ → Nat} {view : σ → α} {s s' t : σ}

theorem refl (s : σ) : Keeps stamp view s s := ⟨Nat.le_refl _, fun _ => rfl⟩

/-- Between equal stamps there is no other one. -/
theorem trans (h : Keeps stamp view s s') (h' : Keeps stamp view s' t) : Keeps stamp view s t := by
  refine ⟨Nat.le_trans h.grows h'.grows, fun hsame => ?_⟩
  have hfst : stamp s' = stamp s := by
    have hle := h.grows
    have hle' := h'.grows
    omega
  rw [h'.same (by omega), h.same hfst]

instance : Std.Refl (Keeps stamp view) := ⟨refl⟩

instance : IsTrans σ (Keeps stamp view) := ⟨fun _ _ _ => trans⟩

/-- A change that is counted may be any change. -/
theorem bump (h : stamp s < stamp s') : Keeps stamp view s s' := ⟨Nat.le_of_lt h, by omega⟩

/-- A run of steps that keep an invariant. -/
theorem foldl {step : σ → ι → σ} {I : σ → Prop} (hstep : ∀ s i, I s → I (step s i) ∧ Keeps stamp view s (step s i))
    (steps : List ι) : ∀ s, I s → I (steps.foldl step s) ∧ Keeps stamp view s (steps.foldl step s) := by
  induction steps with
  | nil => exact fun s hs => ⟨hs, refl s⟩
  | cons i steps ih =>
    intro s hs
    obtain ⟨hnext, hkp⟩ := hstep s i hs
    obtain ⟨hend, hrest⟩ := ih _ hnext
    exact ⟨hend, hkp.trans hrest⟩

end Keeps

end Lib
